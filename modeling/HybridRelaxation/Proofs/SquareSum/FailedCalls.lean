import Mathlib
import HybridRelaxation.Proofs.SquareSum.Multipliers

/-!
# Calls that fail

Over numbers of any kind, a call that states a sum of squares and fails leaves the program as it was.
A call that certifies a polynomial on a set registers the multipliers one after the other, and then
the base.  Where it fails the multipliers before the failure stay: each of them is complete, with its
decisions and its statement, and there is no base.  So the statements of a program are a group for
each call that filled it.
-/

namespace HybridRelaxation

/-! ## Multipliers -/

structure SquareSum.AreMultipliers {K : Type} [Scalar K] (scope : List Symbol) (degree : ℤ)
    (name : String) (constraints : List (Expression K)) (added : List (SquareSum K)) : Prop where
  weights : List.Forall₂ (SquareSum.Multiplies scope degree) added constraints
  names : added.map SquareSum.name =
    (List.range' 0 constraints.length).map (fun i => name ++ toString (i + 1))

namespace SquareProgram

/--
What multipliers of inequalities add to a program: one statement each, over fresh decisions of its
own.  Known decisions keep their columns, and the new ones have theirs.
-/
structure AddsMultipliers {K : Type} [Scalar K] (p q : SquareProgram K) (scope : List Symbol)
    (degree : ℤ) (name : String) (constraints : List (Expression K)) (added : List (SquareSum K)) :
    Prop where
  indeterminates : q.indeterminates = p.indeterminates
  statements : q.statements = p.statements ++ added
  multipliers : SquareSum.AreMultipliers scope degree name constraints added
  decisions : ∃ blocks, q.decisions = p.decisions ++ blocks.flatten ∧
    List.Forall₂ SquareSum.IsFree added blocks
  kept : ∀ t j, p.index t = some j → q.index t = some j
  columns : ∀ (k : ℕ) t, p.size ≤ k → q.decisions[k]? = some t → q.index t = some (k : ℤ)

variable {K : Type} [Scalar K] {p q : SquareProgram K} {scope : List Symbol} {degree : ℤ}
  {name : String} {f : Failure}

theorem AddsMultipliers.eq_of_nil {added : List (SquareSum K)}
    (h : p.AddsMultipliers q scope degree name [] added) : q = p := by
  obtain rfl := List.forall₂_nil_right_iff.mp h.multipliers.weights
  obtain ⟨blocks, decisions, free⟩ := h.decisions
  obtain rfl := List.forall₂_nil_left_iff.mp free
  have same := h.indeterminates
  have statements := h.statements
  cases p
  cases q
  simp_all

theorem addsMultipliers_of_registerMultipliers {rest rest' : Expression K}
    {constraints result : List (Expression K)}
    (h : p.registerMultipliers rest scope degree name 0 constraints = (q, .ok (result, rest'))) :
    ∃ added, p.AddsMultipliers q scope degree name constraints added ∧
      rest' = remainder rest added constraints := by
  have grows := p.grows_registerMultipliers rest scope degree name 0 constraints
  rw [h] at grows
  obtain ⟨added, blocks, statements, decisions, weights, free, names, -, hrest⟩ :=
    registerMultipliers_inversion h
  exact ⟨added, ⟨grows.indeterminates, statements, ⟨weights, names⟩, ⟨blocks, decisions, free⟩,
    fun t j => grows.index_eq, fun k t => grows.index_of_new⟩, hrest⟩

/-! ## Failures -/

theorem statements_of_newSquareSum_eq_error {half : ℤ}
    (h : p.newSquareSum scope half name = (q, .error f)) : q.statements = p.statements := by
  obtain ⟨p', free, hfree, hstated⟩ := newSquareSum_eq_error.mp h
  obtain ⟨rfl, rfl⟩ := Prod.mk.inj hfree
  obtain ⟨rfl, -⟩ := withSquareSum_eq_error.mp hstated
  rfl

/--
Multipliers that are not all registered are those of the inequalities before the failure: the next
one is not polynomial, or its multiplier fails.
-/
theorem exists_of_registerMultipliers_eq_error {rest : Expression K}
    {constraints : List (Expression K)} {k : ℕ}
    (h : p.registerMultipliers rest scope degree name k constraints = (q, .error f)) :
    ∃ before g after p' parts, constraints = before ++ g :: after ∧
      p.registerMultipliers rest scope degree name k before = (p', .ok parts) ∧
      (totalDegree g scope = .error f ∧ q = p' ∨ ∃ d label, totalDegree g scope = .ok d ∧
        p'.newSquareSum scope (multiplierHalf degree d) label = (q, .error f)) := by
  -- An inequality whose multiplier is registered goes before the failure of the others.
  induction constraints generalizing p rest k with
  | nil => simp [registerMultipliers] at h
  | cons g constraints ih =>
      rcases registerMultipliers_cons_eq_error.mp h with
        ⟨hdegree, rfl⟩ | ⟨d, hdegree, hnew | ⟨p₁, s, hnew, hothers⟩⟩
      · exact ⟨[], g, constraints, q, _, rfl, rfl, .inl ⟨hdegree, rfl⟩⟩
      · exact ⟨[], g, constraints, p, _, rfl, rfl, .inr ⟨d, _, hdegree, hnew⟩⟩
      · obtain ⟨before, g', after, p', parts, rfl, first, failed⟩ := ih hothers
        refine ⟨g :: before, g', after, p', (s :: parts.1, parts.2), rfl, ?_, failed⟩
        exact registerMultipliers_cons_eq_ok.mpr ⟨d, p₁, s, parts.1, hdegree, hnew, first, rfl⟩

theorem exists_areMultipliers (p : SquareProgram K) (rest : Expression K) (scope : List Symbol)
    (degree : ℤ) (name : String) (constraints : List (Expression K)) :
    ∃ before added, before <+: constraints ∧
      (p.registerMultipliers rest scope degree name 0 constraints).1.statements =
        p.statements ++ added ∧ SquareSum.AreMultipliers scope degree name before added := by
  cases h : p.registerMultipliers rest scope degree name 0 constraints with
  | mk q outcome =>
      cases outcome with
      | ok parts =>
          obtain ⟨added, adds, -⟩ := addsMultipliers_of_registerMultipliers h
          exact ⟨constraints, added, List.prefix_rfl, adds.statements, adds.multipliers⟩
      | error f =>
          obtain ⟨before, g, after, p', parts, rfl, first, failed⟩ :=
            exists_of_registerMultipliers_eq_error h
          obtain ⟨added, adds, -⟩ := addsMultipliers_of_registerMultipliers first
          have same : q.statements = p'.statements := by
            rcases failed with ⟨-, rfl⟩ | ⟨d, label, -, hnew⟩
            · rfl
            · exact statements_of_newSquareSum_eq_error hnew
          exact ⟨before, added, List.prefix_append _ _, same.trans adds.statements,
            adds.multipliers⟩

theorem exists_addsMultipliers_of_error [Scalar.HasUnits K] (hscope : p.IsBefore scope)
    {e : Expression K} {constraints : List (Expression K)}
    (h : p.nonnegativeOn e scope constraints degree name = (q, .error f)) :
    ∃ before after added, constraints = before ++ after ∧
      p.AddsMultipliers q scope degree name before added ∧
      ((∃ g others, after = g :: others ∧ totalDegree g scope = .error f) ∨
        after = [] ∧ coefficients (remainder e added constraints) scope = .error f) := by
  rcases nonnegativeOn_eq_error.mp h with hmultipliers | ⟨p', parts, hmultipliers, hbase⟩
  · obtain ⟨before, g, after, p', parts, rfl, first, failed⟩ :=
      exists_of_registerMultipliers_eq_error hmultipliers
    obtain ⟨added, adds, -⟩ := addsMultipliers_of_registerMultipliers first
    rcases failed with ⟨hdegree, rfl⟩ | ⟨d, label, -, hnew⟩
    · exact ⟨before, g :: after, added, rfl, adds, .inl ⟨g, after, rfl, hdegree⟩⟩
    · -- The multiplier of a polynomial inequality does not fail.
      obtain ⟨blocks, decisions, -⟩ := adds.decisions
      have growth : p.decisions <+: p'.decisions := ⟨blocks.flatten, decisions.symm⟩
      obtain ⟨s, hs⟩ :=
        exists_newSquareSum_eq_ok (hscope.mono growth) (multiplierHalf degree d) label
      simp [hnew] at hs
  · obtain ⟨rfl, failed⟩ := withSquareSum_eq_error.mp hbase
    obtain ⟨added, adds, hrest⟩ := addsMultipliers_of_registerMultipliers hmultipliers
    exact ⟨constraints, [], added, by simp, adds, .inr ⟨rfl, hrest ▸ failed⟩⟩

/-! ## Groups of statements -/

/-- The multipliers of all inequalities, and the base that they leave. -/
structure IsGroup (e : Expression K) (scope : List Symbol) (constraints : List (Expression K))
    (degree : ℤ) (name : String) (multipliers : List (SquareSum K)) (base : SquareSum K) :
    Prop where
  weights : SquareSum.AreMultipliers scope degree name constraints multipliers
  scope_eq : base.scope = scope
  name_eq : base.name = name ++ "0"
  polynomial : base.polynomial = remainder e multipliers constraints

theorem isGroup_of_nonnegativeOn {e : Expression K} {constraints result : List (Expression K)}
    (h : p.nonnegativeOn e scope constraints degree name = (q, .ok result)) :
    ∃ multipliers base, q.statements = p.statements ++ (multipliers ++ [base]) ∧
      IsGroup e scope constraints degree name multipliers base := by
  obtain ⟨multipliers, base, -, statements, -, weights, -, names, hscope, hname, polynomial, -⟩ :=
    nonnegativeOn_inversion h
  exact ⟨multipliers, base, statements, ⟨weights, names⟩, hscope, hname, polynomial⟩

/-- The statements that a call adds to a program, where it succeeds and where it fails. -/
inductive Call.Adds (p : SquareProgram K) : Call K → List (SquareSum K) → Prop
  | indeterminates (symbols : List Symbol) : Adds p (.indeterminates symbols) []
  | freePolynomial (basis : Entries K) (name : String) : Adds p (.freePolynomial basis name) []
  | squareSum {e : Expression K} {scope : List Symbol} {half : Option ℤ} {name : String}
      {s : SquareSum K} (stated : statement e scope half name = .ok s) :
      Adds p (.squareSum e scope half name) [s]
  | squareSum_failed {e : Expression K} {scope : List Symbol} {half : Option ℤ} {name : String}
      {f : Failure} (failed : coefficients e scope = .error f) :
      Adds p (.squareSum e scope half name) []
  | newSquareSum {scope : List Symbol} {half : ℤ} {name : String} {s : SquareSum K}
      (stated : (p.newSquareSum scope half name).2 = .ok s.polynomial) (scope_eq : s.scope = scope)
      (name_eq : s.name = name) : Adds p (.newSquareSum scope half name) [s]
  | newSquareSum_failed {scope : List Symbol} {half : ℤ} {name : String} {f : Failure}
      (failed : (p.newSquareSum scope half name).2 = .error f) :
      Adds p (.newSquareSum scope half name) []
  | nonnegativeOn {e : Expression K} {scope : List Symbol} {constraints : Entries K} {degree : ℤ}
      {name : String} {inequalities result : List (Expression K)} {multipliers : List (SquareSum K)}
      {base : SquareSum K}
      (certified : (p.nonnegativeOnStated (.one e) scope constraints degree name).2 = .ok result)
      (items : constraints.items = .ok (inequalities.map .one))
      (group : IsGroup e scope inequalities degree name multipliers base) :
      Adds p (.nonnegativeOn (.one e) scope constraints degree name) (multipliers ++ [base])
  | nonnegativeOn_failed {polynomial : Entries K} {scope : List Symbol} {constraints : Entries K}
      {degree : ℤ} {name : String} {f : Failure} {first : List (Expression K)}
      {multipliers : List (SquareSum K)}
      (failed : (p.nonnegativeOnStated polynomial scope constraints degree name).2 = .error f)
      (begins : BeginsWith constraints first)
      (weights : SquareSum.AreMultipliers scope degree name first multipliers) :
      Adds p (.nonnegativeOn polynomial scope constraints degree name) multipliers

theorem exists_adds_nonnegativeOn (p : SquareProgram K) (polynomial : Entries K)
    (scope : List Symbol) (constraints : Entries K) (degree : ℤ) (name : String) :
    ∃ group, (p.nonnegativeOnStated polynomial scope constraints degree name).1.statements =
        p.statements ++ group ∧
      Call.Adds p (.nonnegativeOn polynomial scope constraints degree name) group := by
  cases h : p.nonnegativeOnStated polynomial scope constraints degree name with
  | mk q outcome =>
      rcases nonnegativeOnStated_cases h with
        ⟨e, inequalities, rfl, hitems, hcertified⟩ | ⟨e, first, g, begins, rfl, rfl⟩
      · cases outcome with
        | ok result =>
            obtain ⟨multipliers, base, statements, group⟩ := isGroup_of_nonnegativeOn hcertified
            exact ⟨_, statements, .nonnegativeOn (by rw [h]) hitems group⟩
        | error f =>
            obtain ⟨before, added, hbefore, statements, weights⟩ :=
              p.exists_areMultipliers e scope degree name inequalities
            have same : q = (p.registerMultipliers e scope degree name 0 inequalities).1 := by
              rcases nonnegativeOn_eq_error.mp hcertified with failed | ⟨_, _, hmultipliers, hbase⟩
              · rw [failed]
              · rw [hmultipliers, (withSquareSum_eq_error.mp hbase).1]
            refine ⟨added, same ▸ statements, .nonnegativeOn_failed (by rw [h]) ?_ weights⟩
            rw [BeginsWith, hitems]
            exact hbefore.map Entries.one
      · obtain ⟨before, added, hbefore, statements, weights⟩ :=
          p.exists_areMultipliers e scope degree name first
        exact ⟨added, statements, .nonnegativeOn_failed (by rw [h])
          ((hbefore.map Entries.one).trans begins) weights⟩

theorem Call.exists_adds (c : Call K) (p : SquareProgram K) :
    ∃ group, (c.run p).statements = p.statements ++ group ∧ c.Adds p group := by
  cases c with
  | indeterminates symbols => exact ⟨[], by simp [run, withIndeterminates], .indeterminates symbols⟩
  | freePolynomial basis name =>
      refine ⟨[], ?_, .freePolynomial basis name⟩
      cases hitems : basis.items <;> simp [run, newStatedPolynomial, newFreePolynomial, hitems]
  | squareSum e scope half name =>
      cases h : p.withSquareSum e scope half name with
      | mk q outcome =>
          cases outcome with
          | ok position =>
              obtain ⟨s, hs, rfl, -⟩ := withSquareSum_eq_ok.mp h
              exact ⟨[s], by simp [run, h], .squareSum hs⟩
          | error f =>
              obtain ⟨rfl, failed⟩ := withSquareSum_eq_error.mp h
              exact ⟨[], by simp [run, h], .squareSum_failed failed⟩
  | newSquareSum scope half name =>
      cases h : p.newSquareSum scope half name with
      | mk q outcome =>
          cases outcome with
          | ok e =>
              obtain ⟨s, -, statements, -, -, rfl, hscope, hname, -⟩ := newSquareSum_inversion h
              exact ⟨[s], by simp [run, h, statements], .newSquareSum (by rw [h]) hscope hname⟩
          | error f =>
              exact ⟨[], by simp [run, h, statements_of_newSquareSum_eq_error h],
                .newSquareSum_failed (by rw [h])⟩
  | nonnegativeOn polynomial scope constraints degree name =>
      exact exists_adds_nonnegativeOn p polynomial scope constraints degree name

/-- The statements are groups, each of them what a call adds to the program filled before it. -/
structure AreGroups (calls : List (Call K)) (groups : List (List (SquareSum K))) : Prop where
  statements : (history calls).statements = groups.flatten
  count : groups.length = calls.length
  adds : ∀ (i : ℕ) (c : Call K) (group : List (SquareSum K)), calls[i]? = some c →
    groups[i]? = some group → c.Adds (history (calls.take i)) group

theorem exists_areGroups (calls : List (Call K)) : ∃ groups, AreGroups calls groups := by
  induction calls using List.reverseRecOn with
  | nil => exact ⟨[], rfl, rfl, by simp⟩
  | append_singleton calls last ih =>
      obtain ⟨groups, statements, count, adds⟩ := ih
      obtain ⟨group, more, added⟩ := last.exists_adds (history calls)
      refine ⟨groups ++ [group], ?_, by simp [count], fun i c group' hc hgroup => ?_⟩
      · rw [history, List.foldl_append]
        change (last.run (history calls)).statements = _
        simp [more, statements]
      · rcases Nat.lt_or_ge i calls.length with hi | hi
        · rw [List.getElem?_append_left hi] at hc
          rw [List.getElem?_append_left (count ▸ hi)] at hgroup
          rw [List.take_append_of_le_length hi.le]
          exact adds i c group' hc hgroup
        · obtain rfl : i = calls.length := by
            have bound := (List.getElem?_eq_some_iff.mp hc).1
            rw [List.length_append, List.length_singleton] at bound
            omega
          obtain rfl : last = c := by simpa using hc
          obtain rfl : group = group' := by simpa [← count] using hgroup
          rwa [List.take_left]

/--
What calls leave behind that fail.  A statement that fails leaves the program as it was.  A
certificate that fails leaves the multipliers of the inequalities before the failure with their
decisions, whose columns come after those that were there, and nothing else: the next inequality is
not polynomial, or all are and the rest is not.  So the statements of any program are one group for
each call, in order.
-/
theorem registered_of_failure [Scalar.HasUnits K] :
    (∀ {p q : SquareProgram K} {e : Expression K} {scope : List Symbol} {half : Option ℤ}
        {name : String} {f : Failure},
      p.withSquareSum e scope half name = (q, .error f) → q = p) ∧
    (∀ {p q : SquareProgram K} {e : Expression K} {scope : List Symbol}
        {constraints : List (Expression K)} {degree : ℤ} {name : String} {f : Failure},
      p.IsBefore scope → p.nonnegativeOn e scope constraints degree name = (q, .error f) →
      ∃ before after added, constraints = before ++ after ∧
        p.AddsMultipliers q scope degree name before added ∧ (before = [] → q = p) ∧
        ((∃ g others, after = g :: others ∧ totalDegree g scope = .error f) ∨
          after = [] ∧ coefficients (remainder e added constraints) scope = .error f)) ∧
    ∀ calls : List (Call K), ∃ groups, AreGroups calls groups := by
  refine ⟨fun h => (withSquareSum_eq_error.mp h).1, fun hscope h => ?_, exists_areGroups⟩
  obtain ⟨before, after, added, split, adds, failed⟩ := exists_addsMultipliers_of_error hscope h
  refine ⟨before, after, added, split, adds, ?_, failed⟩
  rintro rfl
  exact adds.eq_of_nil

def reciprocalCall : SquareProgram Number × Except Failure (List (Expression Number)) :=
  empty.nonnegativeOn (.ofSymbol (.named "x")) [.named "x"]
    [.ofSymbol (.named "x"), (Expression.ofSymbol (.named "x")).reciprocal] 2 "s"

theorem reciprocalCall_failed : reciprocalCall.2 = .error (.notPolynomial ["x"]) := by
  decide +kernel

theorem length_statements_reciprocalCall : reciprocalCall.1.statements.length = 1 := by
  decide +kernel

theorem registered_of_failure_reciprocalCall :
    reciprocalCall = (reciprocalCall.1, .error (.notPolynomial ["x"])) ∧
    (∃ before after added,
      [.ofSymbol (.named "x"), (Expression.ofSymbol (.named "x")).reciprocal] = before ++ after ∧
        before ≠ [] ∧
        empty.AddsMultipliers reciprocalCall.1 [.named "x"] 2 "s" before added) ∧
    ∃ groups, AreGroups [Call.squareSum (K := Number)
      (Expression.ofSymbol (.named "x")).reciprocal [.named "x"] none "t"] groups ∧
      (empty : SquareProgram Number).withSquareSum (Expression.ofSymbol (.named "x")).reciprocal
        [.named "x"] none "t" = (empty, .error (.notPolynomial ["x"])) := by
  have failed : reciprocalCall = (reciprocalCall.1, .error (.notPolynomial ["x"])) :=
    Prod.ext rfl reciprocalCall_failed
  obtain ⟨statement, certificate, groups⟩ := registered_of_failure (K := Number)
  refine ⟨failed, ?_, ?_⟩
  · obtain ⟨before, after, added, split, adds, unchanged, -⟩ :=
      certificate (fun position label h => by simp at h) failed
    refine ⟨before, after, added, split, fun hbefore => ?_, adds⟩
    have stated := length_statements_reciprocalCall
    rw [unchanged hbefore] at stated
    simp [empty] at stated
  · obtain ⟨found, hfound⟩ := groups [.squareSum (Expression.ofSymbol (.named "x")).reciprocal
      [.named "x"] none "t"]
    have outcome : ((empty : SquareProgram Number).withSquareSum
        (Expression.ofSymbol (.named "x")).reciprocal [.named "x"] none "t").2 =
          .error (.notPolynomial ["x"]) := by decide +kernel
    exact ⟨found, hfound, Prod.ext (statement (Prod.ext rfl outcome)) outcome⟩

/-- A certificate that fails does not leave every program as it was. -/
theorem not_unchanged_of_failure :
    ¬ ∀ (p q : SquareProgram Number) (e : Expression Number) (scope : List Symbol)
        (constraints : List (Expression Number)) (degree : ℤ) (name : String) (f : Failure),
      p.nonnegativeOn e scope constraints degree name = (q, .error f) →
        q.decisions = p.decisions ∧ q.statements = p.statements ∧
          q.indeterminates = p.indeterminates := by
  intro h
  obtain ⟨-, unchanged, -⟩ := h _ _ _ _ _ _ _ _ (Prod.ext rfl reciprocalCall_failed)
  have stated := length_statements_reciprocalCall
  rw [reciprocalCall, unchanged] at stated
  simp [empty] at stated

end SquareProgram

end HybridRelaxation
