import Mathlib
import HybridRelaxation.Proofs.Relaxation.Renaming
import HybridRelaxation.Proofs.Relaxation.RunningOffset

/-!
# Which statements share decisions

Every multiplier of an assembly has decisions of its own, which no other multiplier has.  The base
of a record takes up those of its multipliers, and besides them only the coefficients of the values
that the constraint compares: of its mode, and for a transition of the mode that it leads to.
-/

namespace HybridRelaxation

open MvPolynomial (C X)

/-! ## Symbols of free polynomials -/

namespace SquareProgram

theorem eq_of_mem_freshDecisions {name : String} {start count : ℕ} {u w : Symbol}
    (hu : u ∈ freshDecisions name start count) (hw : w ∈ freshDecisions name start count)
    {k : ℕ} {label label' : String} (hku : u = .decision k label) (hkw : w = .decision k label') :
    u = w := by
  obtain ⟨i, -, rfl⟩ := List.mem_map.mp hu
  obtain ⟨j, -, rfl⟩ := List.mem_map.mp hw
  rw [(Symbol.decision.inj hku).1, (Symbol.decision.inj hkw).1]

end SquareProgram

theorem SquareSum.IsFree.mem_symbols_iff {s : SquareSum Rat} {block : List Symbol}
    (h : s.IsFree block) (hscope : s.scope.Nodup) (hnamed : ∀ t ∈ s.scope, t.isNamed = true)
    {u : Symbol} : u ∈ block ↔ u ∈ s.polynomial.symbols ∧ u ∉ s.scope := by
  obtain ⟨start, degree, rfl, polynomial⟩ := h
  have within : ∀ w ∈ s.polynomial.symbols, w ∈ s.scope ++ SquareProgram.freshDecisions s.name start
      (monomials (K := Rat) s.scope degree 0).length := by
    rw [polynomial]
    exact fun w hw => SquareProgram.symbols_combination hw
  refine ⟨fun hu => ?_, fun ⟨hu, hnot⟩ => (List.mem_append.mp (within u hu)).resolve_left hnot⟩
  have unnamed := SquareProgram.isNamed_of_mem_freshDecisions hu
  refine ⟨?_, fun hmem => by simp [hnamed u hmem] at unnamed⟩
  -- Otherwise the polynomial would be the same for all values of the decision.
  by_contra absent
  obtain ⟨i, hi, rfl⟩ := List.mem_map.mp hu
  have same : solvedAt (0 : ℕ → ℚ) s.polynomial =
      solvedAt (Function.update (0 : ℕ → ℚ) (start + i) 1) s.polynomial := by
    refine Expression.eval_congr _ (fun w hw => ?_)
    cases w with
    | named name => rfl
    | decision k label =>
        have differs : k ≠ start + i := by
          rintro rfl
          rcases List.mem_append.mp (within _ hw) with hw' | hw'
          · simpa [Symbol.isNamed] using hnamed _ hw'
          · exact absent (SquareProgram.eq_of_mem_freshDecisions hu hw' rfl rfl ▸ hw)
        simp [decided, differs]
  rw [polynomial] at same
  have values := values_eq_of_combination hnamed hscope same (k := start + i) (by omega)
    (by have := List.mem_range.mp hi; omega)
  simp at values

/-! ## Symbols of templates -/

structure ValueTemplate.IsClosed (time : Symbol) (m : Mode Rat) (template : ValueTemplate Rat) :
    Prop where
  value : ∀ u ∈ template.value.symbols, u ∈ (time :: m.states) ++ template.decisions
  final : ∀ u ∈ template.final.symbols, u ∈ m.states ++ template.decisions
  flow : ∀ u ∈ template.flowDerivative.symbols,
    u ∈ (time :: m.states ++ m.controls) ++ template.decisions

section

variable {time : Symbol}

theorem ValueTemplate.Fits.isClosed {m : Mode Rat} (hm : m.IsPolynomial time)
    (hc : m.IsConsistent time) {degree : ℤ} {decisions : List Symbol}
    {template : ValueTemplate Rat} (fits : template.Fits time degree decisions m)
    (unnamed : ∀ u ∈ decisions, u.isNamed = false)
    (canonical : template.flowDerivative.IsCanonical) : template.IsClosed time m := by
  have own : ∀ u ∈ template.decisions, u.isNamed = false := fun u hu => unnamed u (fits.known u hu)
  have replacement := isReplacement_final time m.states
  refine ⟨fun u hu => ?_, ?_, canonical.isWithin (mem_scopePolynomials_of_mem_affineSpan
    (fits.own.flow_mem_affineSpan hm hc own))⟩
  · rw [fits.value] at hu
    exact SquareProgram.symbols_combination hu
  · rw [fits.final]
    exact fits.own.symbols_replaced replacement (fun u hu => replacement.notMem_keys
      (fun v hv => hm.named v (List.mem_append_left _ hv)) (own u hu))

theorem spec_of_registerModes {modes : List (Mode Rat)}
    (hmodes : ∀ m ∈ modes, m.IsPolynomial time) (hconsistent : ∀ m ∈ modes, m.IsConsistent time)
    {degree : ℤ} {index : ℕ} {p q : SquareProgram Rat} {templates : List (ValueTemplate Rat)}
    (h : registerModes time degree horizon p index modes = (q, .ok templates)) :
    q.decisions = p.decisions ++ templates.flatMap ValueTemplate.decisions ∧
      ∀ template ∈ templates, template.flowDerivative.IsCanonical := by
  induction modes generalizing p index templates with
  | nil =>
      obtain ⟨rfl, result⟩ := Prod.mk.inj h
      obtain rfl := Except.ok.inj result
      simp
  | cons m modes ih =>
      obtain ⟨p', template, others, hregister, hothers, rfl⟩ := registerModes_cons_eq_ok.mp h
      obtain ⟨decisions, canonical⟩ := ih (fun n hn => hmodes n (by simp [hn]))
        (fun n hn => hconsistent n (by simp [hn])) hothers
      have registered := ValueTemplate.isRegistered_of_register hregister
      refine ⟨?_, List.forall_mem_cons.mpr
        ⟨registered.isCanonical_flow (hmodes m (by simp)) (hconsistent m (by simp)), canonical⟩⟩
      rw [decisions, registered.programDecisions, List.flatMap_cons, List.append_assoc]

end

/-! ## Symbols of inequalities -/

/-- The constraint is on the value of the mode at a position: its own, or where its jump leads. -/
def ConstraintPlace.Concerns (place : ConstraintPlace) (k : ℕ) : Prop :=
  place.mode = k ∨ place.kind = .transition ∧ place.target = some (k : ℤ)

/-- The symbol is a coefficient of a value that the constraint compares. -/
def ConstraintPlace.Compares (place : ConstraintPlace) (templates : List (ValueTemplate Rat))
    (u : Symbol) : Prop :=
  ∃ k template, place.Concerns k ∧ templates[k]? = some template ∧ u ∈ template.decisions

structure Inequality.IsClosed (templates : List (ValueTemplate Rat)) (q : Inequality Rat) :
    Prop where
  polynomial : ∀ u ∈ q.polynomial.symbols, u ∈ q.scope ∨ q.place.Compares templates u
  constraints : ∀ g ∈ q.constraints, ∀ u ∈ g.symbols, u ∈ q.scope

theorem symbols_timeWindow {time u : Symbol} {T : Rat} (hu : u ∈ (timeWindow time T).symbols) :
    u = time := by
  have symbol {u : Symbol} (hu : u ∈ (Expression.ofSymbol time : Expression Rat).symbols) :
      u = time :=
    List.mem_singleton.mp (Expression.isWithin_ofSymbol (List.mem_singleton_self time) u hu)
  rcases Expression.symbols_mul (Expression.isPolynomial_ofSymbol time)
    (Expression.isPolynomial_sub (Expression.isPolynomial_number T)
      (Expression.isPolynomial_ofSymbol time)) hu with hu | hu
  · exact symbol hu
  · rcases Expression.symbols_sub hu with hu | hu
    · exact absurd (isWithin_number [] T u hu) List.not_mem_nil
    · exact symbol hu

section

variable {s : HybridSystem Rat} (hs : s.IsPolynomial) (hc : s.IsConsistent) {degree : ℤ}
  {decisions : List Symbol} (unnamed : ∀ u ∈ decisions, u.isNamed = false)
  {templates : List (ValueTemplate Rat)}
  (ht : List.Forall₂ (ValueTemplate.Fits s.time degree decisions) s.modes templates)
  (canonical : ∀ template ∈ templates, template.flowDerivative.IsCanonical)

include hs hc unnamed ht canonical

theorem isClosed_at {i : ℕ} {m : Mode Rat} {template : ValueTemplate Rat}
    (hm : s.modes[i]? = some m) (htemplate : templates[i]? = some template) :
    template.IsClosed s.time m :=
  (related_at ht hm htemplate).isClosed (hs.modes m (List.mem_of_getElem? hm))
    (hc.modes m (List.mem_of_getElem? hm)) unnamed
    (canonical template (List.mem_of_getElem? htemplate))

theorem isClosed_of_certifiedBy {freeFinalTime : Bool}
    (hfinal : freeFinalTime = true → ∀ m ∈ s.modes, m.targetSet = []) {q : Inequality Rat}
    (hq : q ∈ certifiedBy (assemblySteps s templates horizon freeFinalTime)) :
    q.IsClosed templates := by
  have closed {i : ℕ} {m : Mode Rat} {template : ValueTemplate Rat} (hm : s.modes[i]? = some m)
      (htemplate : templates[i]? = some template) :=
    isClosed_at hs hc unnamed ht canonical hm htemplate
  refine forall_assemblySteps_at hc ht hfinal (P := fun step => ∀ q, step = .certify q →
    q.IsClosed templates) ?_ ?_ ?_ ?_ _ (mem_certifiedBy.mp hq) q rfl
  · rintro i m template hm htemplate - _ ⟨⟩
    have consistent := hc.modes m (List.mem_of_getElem? hm)
    refine ⟨fun u hu => ?_, fun g hg u hu => ?_⟩
    · rcases Expression.symbols_add hu with hu | hu
      · exact (List.mem_append.mp ((closed hm htemplate).flow u hu)).imp_right
          (fun h => ⟨i, template, .inl rfl, htemplate, h⟩)
      · exact .inl (consistent.runningCost u hu)
    · rcases List.mem_append.mp hg with hg | hg
      · rcases List.mem_cons.mp hg with rfl | hg
        · simp [liouvilleInequality, symbols_timeWindow hu]
        · simp [liouvilleInequality, consistent.domain g hg u hu]
      · simp [liouvilleInequality, consistent.controlSet g hg u hu]
  · rintro i m template hm htemplate - - _ ⟨⟩
    have consistent := hc.modes m (List.mem_of_getElem? hm)
    refine ⟨fun u hu => ?_, consistent.targetSet⟩
    rcases Expression.symbols_sub hu with hu | hu
    · exact .inl (consistent.terminalCost u hu)
    · exact (List.mem_append.mp ((closed hm htemplate).final u hu)).imp_right
        (fun h => ⟨i, template, .inl rfl, htemplate, h⟩)
  · rintro t htransition - i j source target fits here next hhere hnext - nextFits reset hreset _ ⟨⟩
    have htarget := hs.modes target (List.mem_of_getElem? fits.targetMode)
    have replacement := isReplacement_reset hs htransition fits
    refine ⟨fun u hu => ?_, fun g hg u hu => ?_⟩
    · rcases Expression.symbols_sub hu with hu | hu
      · rw [valueAfter, nextFits.states, hreset] at hu
        refine (List.mem_append.mp (nextFits.own.symbols_replaced replacement (fun v hv =>
          replacement.notMem_keys (fun w hw => htarget.named w (List.mem_append_left _ hw))
            (unnamed v (nextFits.known v hv))) u hu)).imp_right
              (fun h => ⟨j, next, .inr ⟨rfl, rfl⟩, hnext, h⟩)
      · exact (List.mem_append.mp ((closed fits.sourceMode hhere).value u hu)).imp_right
          (fun h => ⟨i, here, .inl rfl, hhere, h⟩)
    · rcases List.mem_cons.mp hg with rfl | hg
      · simp [transitionInequality, symbols_timeWindow hu]
      · simp [transitionInequality, fits.guard g hg u hu]
  · rintro i m template - - - state - _ ⟨⟩

end

/-! ## Symbols of statements -/

theorem symbols_remainder {ms : List (SquareSum Rat)} {gs : List (Expression Rat)}
    (hms : ∀ s ∈ ms, s.polynomial.IsPolynomial) (hgs : ∀ g ∈ gs, g.IsPolynomial)
    {e : Expression Rat} {u : Symbol} (hu : u ∈ (remainder e ms gs).symbols) :
    u ∈ e.symbols ∨ (∃ s ∈ ms, u ∈ s.polynomial.symbols) ∨ ∃ g ∈ gs, u ∈ g.symbols := by
  induction ms generalizing gs e with
  | nil => exact .inl hu
  | cons s ms ih =>
      cases gs with
      | nil => exact .inl hu
      | cons g gs =>
          rcases ih (fun t ht => hms t (by simp [ht])) (fun f hf => hgs f (by simp [hf])) hu with
            hu | ⟨t, ht, hu⟩ | ⟨f, hf, hu⟩
          · rcases Expression.symbols_sub hu with hu | hu
            · exact .inl hu
            · rcases Expression.symbols_mul (hms s (by simp)) (hgs g (by simp)) hu with hu | hu
              · exact .inr (.inl ⟨s, by simp, hu⟩)
              · exact .inr (.inr ⟨g, by simp, hu⟩)
          · exact .inr (.inl ⟨t, by simp [ht], hu⟩)
          · exact .inr (.inr ⟨f, by simp [hf], hu⟩)

/--
The coefficients of a statement mention decisions that its polynomial mentions, and are affine in
these.
-/
structure SquareSum.IsClosed (p : SquareProgram Rat) (s : SquareSum Rat) : Prop where
  coefficients : HybridRelaxation.coefficients s.polynomial s.scope = .ok s.coefficients
  natural : ∀ t ∈ s.coefficients, t.1.IsNatural s.scope.length
  affine : ∀ t ∈ s.coefficients, (t.2.eval X : MvPolynomial Symbol ℚ) ∈
    Submodule.span ℚ (insert 1 (X '' {u | u ∈ p.decisions}))
  linear : ∀ t ∈ s.coefficients, ∃ form, linearForm t.2 p.index = .ok form
  symbols : ∀ t ∈ s.coefficients, ∀ u ∈ t.2.symbols, u ∈ s.polynomial.symbols ∧ u ∈ p.decisions

theorem symbols_subset_of_coefficients {e : Expression Rat} (he : e.IsPolynomial)
    {scope : List Symbol} (hscope : scope.Nodup) {m : CoefficientMap Rat}
    (hm : coefficients e scope = .ok m) {t : Exponents × Expression Rat} (ht : t ∈ m) :
    ∀ u ∈ t.2.symbols, u ∈ e.symbols := by
  classical
  have regular := isRegular_of_coefficients he hm
  have value {ρ : Symbol → MvPolynomial Symbol ℚ} := coeff_of_coefficients ρ he hscope hm
    (regular.vectors t ht)
  rw [CoefficientMap.coefficientAt_of_mem regular (v := t.1) (c := t.2) ht] at value
  -- The coefficient has the same value where all that is not mentioned is zero.
  let ρ : Symbol → scopePolynomials e.symbols := fun u =>
    if hu : u ∈ e.symbols then ⟨X u, X_mem_scopePolynomials hu⟩ else 0
  have mentioned : t.2.eval (fun u => (scopePolynomials e.symbols).val (ρ u)) = t.2.eval X := by
    rw [← value, ← value]
    congr 1
    refine Expression.eval_congr e (fun u hu => ?_)
    simp [scopePoint, ρ, hu]
  refine (regular.canonical t ht).isWithin ?_
  rw [← mentioned, ← Expression.map_eval]
  exact (t.2.eval ρ).2

theorem SquareProgram.IsRegular.isClosed {p : SquareProgram Rat} (hp : p.IsRegular)
    {s : SquareSum Rat} (hs : s ∈ p.statements) : s.IsClosed p := by
  have regular := hp.statements s hs
  have disjoint : ∀ u ∈ p.decisions, u ∉ s.scope :=
    fun u hu hmem => hp.notMem_decisions (hp.named s hs u hmem) hu
  refine ⟨regular.coefficients,
    (isRegular_of_coefficients regular.polynomial regular.coefficients).vectors,
    fun t ht => eval_mem_span_of_coefficients regular.polynomial regular.distinct disjoint
      (hp.affine s hs) regular.coefficients ht, fun t ht => ?_, fun t ht u hu => ⟨?_, ?_⟩⟩
  · obtain ⟨form, hform, -⟩ := exists_linearForm_of_coefficients regular.polynomial
      regular.distinct disjoint (hp.affine s hs) regular.coefficients ht
      (fun u hu => hp.exists_index hu)
    exact ⟨form, hform⟩
  · exact symbols_subset_of_coefficients regular.polynomial regular.distinct regular.coefficients ht
      u hu
  · exact symbols_of_coefficients regular.polynomial regular.distinct disjoint (hp.affine s hs)
      regular.coefficients ht u hu

/-! ## Records -/

structure ConstraintRecord.IsCoupled (c : ConstraintRecord Rat)
    (templates : List (ValueTemplate Rat)) (blocks : List (List Symbol))
    (multipliers : List (SquareSum Rat)) (base : SquareSum Rat) : Prop where
  /-- A block of fresh decisions for each multiplier, which mentions these and no others. -/
  weights : List.Forall₂ (fun s block => s.IsFree block ∧ s.scope = c.scope ∧
    ∀ u, u ∈ block ↔ u ∈ s.polynomial.symbols ∧ u ∉ c.scope) multipliers blocks
  count : c.multiplierCount = multipliers.length
  base_scope : base.scope = c.scope
  base_symbols : ∀ u ∈ base.polynomial.symbols,
    u ∈ c.scope ∨ u ∈ blocks.flatten ∨ c.place.Compares templates u

section

variable {c : ConstraintRecord Rat} {templates : List (ValueTemplate Rat)}
  {own : List (List Symbol)}

theorem isCoupled_of_owns {ss : List (SquareSum Rat)} (owns : c.Owns ss) (free : AreFree ss own)
    {p : SquareProgram Rat} (hp : p.IsRegular) (hss : ∀ s ∈ ss, s ∈ p.statements)
    {q : Inequality Rat} {degree : ℤ} {k : ℕ} (hc : c = Assembly.recordOf q degree k)
    (hq : q.IsRegular p.decisions) (closed : q.IsClosed templates) :
    ∃ multipliers base, ss = multipliers ++ [base] ∧
      c.IsCoupled templates own multipliers base := by
  obtain ⟨multipliers, base, rfl, stated⟩ := owns
  rw [AreFree, List.dropLast_concat] at free
  have scopes : ∀ s ∈ multipliers, s.scope = c.scope := fun s hs => by
    obtain ⟨g, -, multiplies⟩ := exists_right_of_mem stated.weights hs
    exact multiplies.scope_eq
  have named : ∀ t ∈ c.scope, t.isNamed = true := hc ▸ hq.named
  have weights : List.Forall₂ (fun s block => s.IsFree block ∧ s.scope = c.scope ∧
      ∀ u, u ∈ block ↔ u ∈ s.polynomial.symbols ∧ u ∉ c.scope) multipliers own := by
    refine forall₂_imp_of_mem free (fun s hs block hfree => ⟨hfree, scopes s hs, fun u => ?_⟩)
    rw [← scopes s hs] at named ⊢
    exact hfree.mem_symbols_iff (hp.statements s (hss s (by simp [hs]))).distinct named
  refine ⟨multipliers, base, rfl, weights, ?_, stated.base_scope, fun u hu => ?_⟩
  · rw [stated.count, stated.weights.length_eq]
  · rw [stated.base_polynomial] at hu
    subst hc
    rcases symbols_remainder (fun s hs => (hp.statements s (hss s (by simp [hs]))).polynomial)
      hq.constraints hu with hu | ⟨s, hs, hu⟩ | ⟨g, hg, hu⟩
    · exact (closed.polynomial u hu).imp_right .inr
    · by_cases hscope : u ∈ q.scope
      · exact .inl hscope
      · obtain ⟨block, hblock, -, -, mentions⟩ := exists_right_of_mem weights hs
        exact .inr (.inl (List.mem_flatten.mpr ⟨block, hblock, (mentions u).mpr ⟨hu, hscope⟩⟩))
    · exact .inl (closed.constraints g hg u hu)

theorem ConstraintRecord.IsCoupled.mentions {multipliers : List (SquareSum Rat)}
    {base : SquareSum Rat} (h : c.IsCoupled templates own multipliers base) {k : ℕ}
    {s : SquareSum Rat} (hs : (multipliers ++ [base])[k]? = some s) {u : Symbol}
    (hu : u ∈ s.polynomial.symbols) (hscope : u ∉ c.scope)
    (hvalues : ¬ c.place.Compares templates u) :
    (∃ block, own[k]? = some block ∧ u ∈ block) ∨ k = multipliers.length ∧ u ∈ own.flatten := by
  rcases lt_or_ge k multipliers.length with hk | hk
  · rw [List.getElem?_append_left hk] at hs
    obtain ⟨block, hblock, -, -, mentions⟩ := exists_right_at h.weights hs
    exact .inl ⟨block, hblock, (mentions u).mpr ⟨hu, hscope⟩⟩
  · rw [List.getElem?_append_right hk, List.getElem?_singleton] at hs
    obtain ⟨rfl, rfl⟩ : k = multipliers.length ∧ base = s := by
      split at hs
      · exact ⟨by omega, Option.some.inj hs⟩
      · simp at hs
    exact .inr ⟨rfl, ((h.base_symbols u hu).resolve_left hscope).resolve_right hvalues⟩

end

/-! ## Built relaxations -/

theorem mem_of_mem_slice {α : Type} {xs : List α} {start stop : ℤ} {x : α}
    (h : x ∈ slice xs start stop) : x ∈ xs :=
  List.mem_of_mem_take (List.mem_of_mem_drop h)

theorem eq_of_nodup_flatten {α : Type} {xss : List (List α)} (h : xss.flatten.Nodup) {i j : ℕ}
    {xs ys : List α} (hi : xss[i]? = some xs) (hj : xss[j]? = some ys) {u : α} (hx : u ∈ xs)
    (hy : u ∈ ys) : i = j := by
  have disjoint {i j : ℕ} {xs ys : List α} (hi : xss[i]? = some xs) (hj : xss[j]? = some ys)
      (hx : u ∈ xs) (hy : u ∈ ys) : ¬ i < j := by
    obtain ⟨hi', rfl⟩ := List.getElem?_eq_some_iff.mp hi
    obtain ⟨hj', rfl⟩ := List.getElem?_eq_some_iff.mp hj
    exact fun hlt => List.pairwise_iff_getElem.mp (List.nodup_flatten.mp h).2 i j hi' hj' hlt hx hy
  exact le_antisymm (not_lt.mp (disjoint hj hi hy hx)) (not_lt.mp (disjoint hi hj hx hy))

/-- The decisions of a relaxation in blocks, and the statements that mention them. -/
structure Relaxation.IsCoupled (r : Relaxation Rat) (blocks : List (List (List Symbol))) :
    Prop where
  decisions : r.program.decisions =
    r.templates.flatMap ValueTemplate.decisions ++ blocks.flatten.flatten
  distinct : r.program.decisions.Nodup
  closed : ∀ s ∈ r.program.statements, s.IsClosed r.program
  records : List.Forall₂ (fun c own => ∃ multipliers base,
    slice r.program.statements c.offset c.stop = multipliers ++ [base] ∧
      c.IsCoupled r.templates own multipliers base) r.records blocks
  /-- The coefficients of a multiplier occur in it and in the base of its record only. -/
  unshared : ∀ {i k j : ℕ} {c own block u s}, r.records[i]? = some c → blocks[i]? = some own →
    own[k]? = some block → u ∈ block → r.program.statements[j]? = some s →
      u ∈ s.polynomial.symbols → (j : ℤ) = c.offset + k ∨ (j : ℤ) = c.baseIndex

namespace Relaxation

variable {r : Relaxation Rat} {blocks : List (List (List Symbol))}

/-- A decision stands in the blocks of one record only, and there in one block. -/
theorem eq_of_mem_blocks (flat : blocks.flatten.flatten.Nodup) {i i' : ℕ}
    {own own' : List (List Symbol)} (hown : blocks[i]? = some own) (hown' : blocks[i']? = some own')
    {u : Symbol} (hu : u ∈ own.flatten) (hu' : u ∈ own'.flatten) :
    i = i' ∧ ∀ {k k' : ℕ} {block block' : List Symbol}, own[k]? = some block →
      own'[k']? = some block' → u ∈ block → u ∈ block' → k = k' := by
  rw [List.flatten_flatten] at flat
  obtain rfl : i = i' := eq_of_nodup_flatten flat (by rw [List.getElem?_map, hown]; rfl)
    (by rw [List.getElem?_map, hown']; rfl) hu hu'
  obtain rfl := Option.some.inj (hown.symm.trans hown')
  have inner : own.flatten.Nodup := (List.nodup_flatten.mp flat).1 _
    (List.mem_map_of_mem (List.mem_of_getElem? hown))
  exact ⟨rfl, fun hblock hblock' hu hu' => eq_of_nodup_flatten inner hblock hblock' hu hu'⟩

theorem exists_record_of_statement
    (tiles : Tiles 0 r.program.statements.length r.records)
    (records : List.Forall₂ (fun c own => ∃ multipliers base,
      slice r.program.statements c.offset c.stop = multipliers ++ [base] ∧
        c.IsCoupled r.templates own multipliers base) r.records blocks) {j : ℕ} {s : SquareSum Rat}
    (hs : r.program.statements[j]? = some s) :
    ∃ (i k : ℕ) (c : ConstraintRecord Rat) (own : List (List Symbol))
      (multipliers : List (SquareSum Rat)) (base : SquareSum Rat),
      r.records[i]? = some c ∧ blocks[i]? = some own ∧
        c.IsCoupled r.templates own multipliers base ∧ (multipliers ++ [base])[k]? = some s ∧
        (j : ℤ) = c.offset + k := by
  have count : ∀ c ∈ r.records, 0 ≤ c.multiplierCount := fun c hc => by
    obtain ⟨own, -, multipliers, base, -, coupled⟩ := exists_right_of_mem records hc
    rw [coupled.count]
    exact Int.natCast_nonneg _
  obtain ⟨c, ⟨hmem, lower, upper⟩, -⟩ := tiles.existsUnique count (Int.natCast_nonneg j)
    (Int.ofNat_lt.mpr (List.getElem?_eq_some_iff.mp hs).1)
  obtain ⟨i, hc⟩ := List.mem_iff_getElem?.mp hmem
  obtain ⟨own, hown, multipliers, base, part, coupled⟩ := exists_right_at records hc
  obtain ⟨o, ho⟩ := Int.eq_ofNat_of_zero_le (tiles.bounds count hmem).1
  have stop : c.stop = ((o + (multipliers.length + 1) : ℕ) : ℤ) := by
    rw [ConstraintRecord.stop, ConstraintRecord.baseIndex, coupled.count, ho]
    push_cast
    ring
  rw [ho] at lower part
  rw [stop] at upper part
  obtain ⟨k, rfl⟩ := Nat.exists_eq_add_of_le (Int.ofNat_le.mp lower)
  have here : (multipliers ++ [base])[k]? = some s := by
    rw [← part, getElem?_slice _ (Int.ofNat_lt.mp upper), hs]
  exact ⟨i, k, c, own, multipliers, base, hc, hown, coupled, here, by rw [ho, Nat.cast_add]⟩

variable
  (decisions : r.program.decisions =
    r.templates.flatMap ValueTemplate.decisions ++ blocks.flatten.flatten)
  (regular : r.program.IsRegular)

include decisions regular

theorem mem_blocks_notMem {i : ℕ} {own : List (List Symbol)} (hown : blocks[i]? = some own)
    {u : Symbol} (hu : u ∈ own.flatten) :
    u ∈ r.program.decisions ∧ ∀ template ∈ r.templates, u ∉ template.decisions := by
  have distinct := nodup_decisions regular
  have listed : u ∈ blocks.flatten.flatten := by
    obtain ⟨block, hblock, hu⟩ := List.mem_flatten.mp hu
    exact List.mem_flatten.mpr ⟨block, List.mem_flatten.mpr ⟨own, List.mem_of_getElem? hown,
      hblock⟩, hu⟩
  rw [decisions] at distinct ⊢
  refine ⟨List.mem_append_right _ listed, fun template htemplate hmem => ?_⟩
  exact (List.nodup_append.mp distinct).2.2 u
    (List.mem_flatMap.mpr ⟨template, htemplate, hmem⟩) u listed rfl

theorem isCoupled_of_records
    (named : ∀ c ∈ r.records, ∀ t ∈ c.scope, t.isNamed = true)
    (tiles : Tiles 0 r.program.statements.length r.records)
    (records : List.Forall₂ (fun c own => ∃ multipliers base,
      slice r.program.statements c.offset c.stop = multipliers ++ [base] ∧
        c.IsCoupled r.templates own multipliers base) r.records blocks) : r.IsCoupled blocks := by
  have distinct := nodup_decisions regular
  refine ⟨decisions, distinct, fun s hs => regular.isClosed hs, records, ?_⟩
  intro i k j c own block u s hc hown hblock hu hs hmentioned
  have inside : u ∈ own.flatten := List.mem_flatten.mpr ⟨block, List.mem_of_getElem? hblock, hu⟩
  obtain ⟨known, unused⟩ := mem_blocks_notMem decisions regular hown inside
  have flat : blocks.flatten.flatten.Nodup := by
    rw [decisions] at distinct
    exact (List.nodup_append.mp distinct).2.1
  obtain ⟨i', k', c', own', multipliers, base, hc', hown', coupled, here, position⟩ :=
    exists_record_of_statement tiles records hs
  have hscope : u ∉ c'.scope := fun hmem =>
    regular.notMem_decisions (named c' (List.mem_of_getElem? hc') u hmem) known
  have hvalues : ¬ c'.place.Compares r.templates u := by
    rintro ⟨_, template, -, htemplate, h⟩
    exact unused template (List.mem_of_getElem? htemplate) h
  rcases coupled.mentions here hmentioned hscope hvalues with ⟨block', hblock', hu'⟩ | ⟨hk', hu'⟩
  · obtain ⟨rfl, same⟩ := eq_of_mem_blocks flat hown hown' inside
      (List.mem_flatten.mpr ⟨block', List.mem_of_getElem? hblock', hu'⟩)
    obtain rfl := Option.some.inj (hc.symm.trans hc')
    obtain rfl := same hblock hblock' hu hu'
    exact .inl position
  · obtain ⟨rfl, -⟩ := eq_of_mem_blocks flat hown hown' inside hu'
    obtain rfl := Option.some.inj (hc.symm.trans hc')
    exact .inr (by rw [position, ConstraintRecord.baseIndex, coupled.count, hk'])

end Relaxation

theorem Problem.exists_isCoupled {p : Problem Rat} (hp : p.IsWellPosed) {r : Relaxation Rat}
    (h : p.build = .ok r) : ∃ blocks, r.IsCoupled blocks := by
  obtain ⟨cs, relaxed⟩ := isRelaxedBy_of_build hp h
  have unnamed := fun u (hu : u ∈ r.program.decisions) => relaxed.regular.isNamed_of_mem hu
  have steps := isRegular_assemblySteps hp.polynomial hp.consistent unnamed relaxed.templates
    hp.final
  obtain ⟨q, b, hregister, assembled, hprogram, hrecords⟩ := build_inversion h
  obtain ⟨sss, owns, statements, records, -, blocks, decisions, free⟩ :=
    Assembly.takeAll_inversion (fun step hstep => (steps step hstep).isPlain) assembled
  obtain ⟨templateDecisions, canonical⟩ :=
    spec_of_registerModes hp.polynomial.modes hp.consistent.modes hregister
  have start : (Assembly.start q).program.statements = [] := statements_of_templates hp hregister
  rw [start, List.nil_append] at statements
  rw [start, List.length_nil] at owns records
  rw [← hrecords, Assembly.start, List.nil_append] at records
  rw [← hprogram] at statements decisions
  rw [← records] at owns
  have listed : ∀ c ∈ r.records, ∃ q' ∈ certifiedBy (assemblySteps p.system r.templates horizon
      p.settings.freeFinalTime), ∃ k : ℕ, c = Assembly.recordOf q' p.degree.value k :=
    fun c hc => mem_recordsFrom (records ▸ hc)
  have tiles : Tiles ([] : List (SquareSum Rat)).length r.program.statements.length r.records := by
    have lengths := owns.imp (fun _ _ h => h.length)
    rw [records] at lengths ⊢
    have tiles := tiles_recordsFrom lengths
    rwa [Nat.zero_add, ← statements] at tiles
  -- Each record finds what it owns in its slice of the statements.
  have whole : r.program.statements = [] ++ sss.flatten ++ [] := by simp [statements]
  have parts : List.Forall₂ (fun c ss => slice r.program.statements c.offset c.stop = ss) r.records
      sss := whole ▸ slice_of_owns owns tiles
  have found : ∀ c ∈ r.records, c.Owns (slice r.program.statements c.offset c.stop) :=
    fun c hc => whole ▸ owns_slice owns tiles hc
  refine ⟨blocks, Relaxation.isCoupled_of_records ?_ relaxed.regular (fun c hc t ht => ?_) tiles
    (forall₂_imp_of_mem (forall₂_comp parts free) ?_)⟩
  · rw [decisions, Assembly.start, templateDecisions]
    rfl
  · obtain ⟨q', hq', k, rfl⟩ := listed c hc
    exact (steps _ (mem_certifiedBy.mp hq')).named t ht
  · rintro c hc own ⟨_, rfl, hfree⟩
    obtain ⟨q', hq', k, record⟩ := listed c hc
    exact isCoupled_of_owns (found c hc) hfree relaxed.regular (fun s hs => mem_of_mem_slice hs)
      record (steps _ (mem_certifiedBy.mp hq')) (isClosed_of_certifiedBy hp.polynomial
        hp.consistent unnamed relaxed.templates canonical hp.final hq')

end HybridRelaxation
