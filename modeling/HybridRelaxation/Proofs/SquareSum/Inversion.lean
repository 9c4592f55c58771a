import HybridRelaxation.Proofs.Outcome
import HybridRelaxation.SquareSum.Stated

/-!
# What an operation on a program did

An operation that registers sums of squares returns a program in any case.  From the program and the
outcome it can be read back which operations it went through, and where the first of them failed.
-/

namespace HybridRelaxation

namespace SquareProgram

variable {K : Type} [Scalar K] {p q : SquareProgram K} {scope : List Symbol} {name : String}
  {e rest : Expression K} {half : Option ℤ} {degree : ℤ} {f : Failure}

/-! ## Statements -/

theorem statement_inversion {s : SquareSum K} (h : statement e scope half name = .ok s) :
    coefficients e scope = .ok s.coefficients ∧ s.polynomial = e ∧ s.scope = scope ∧
      s.name = name ∧
      s.basis = exponents scope.length (half.getD (halfDegree s.coefficients.totalDegree)) 0 := by
  obtain ⟨m, hm, hs⟩ := bind_eq_ok.mp h
  obtain rfl := Except.ok.inj hs
  exact ⟨hm, rfl, rfl, rfl, rfl⟩

theorem statement_eq_error :
    statement e scope half name = .error f ↔ coefficients e scope = .error f := by
  simp [statement, bind_eq_error]

theorem withSquareSum_eq_ok {position : ℕ} :
    p.withSquareSum e scope half name = (q, .ok position) ↔
      ∃ s, statement e scope half name = .ok s ∧
        q = { p with statements := p.statements ++ [s] } ∧ position = p.statements.length := by
  unfold withSquareSum
  cases statement e scope half name <;> simp [eq_comm]

/-- A statement that fails leaves the program as it was. -/
theorem withSquareSum_eq_error :
    p.withSquareSum e scope half name = (q, .error f) ↔ q = p ∧ coefficients e scope = .error f := by
  rw [← statement_eq_error]
  unfold withSquareSum
  cases statement e scope half name <;> simp [eq_comm]

section

variable {half : ℤ} {multiplier : Expression K}

theorem newSquareSum_eq_ok :
    p.newSquareSum scope half name = (q, .ok multiplier) ↔ ∃ p' free position,
      p.newFreePolynomial (monomials scope (2 * half) 0) name = (p', free) ∧
        p'.withSquareSum free.polynomial scope (some half) name = (q, .ok position) ∧
        free.polynomial = multiplier := by
  unfold newSquareSum
  constructor
  · intro h
    rcases hfree : p.newFreePolynomial (monomials scope (2 * half) 0) name with ⟨p', free⟩
    rcases hstated : p'.withSquareSum free.polynomial scope (some half) name with ⟨q', outcome⟩
    simp only [hfree, hstated] at h
    obtain ⟨rfl, houtcome⟩ := Prod.mk.inj h
    obtain ⟨position, rfl, rfl⟩ := map_eq_ok.mp houtcome
    exact ⟨p', free, position, rfl, hstated, rfl⟩
  · rintro ⟨p', free, position, hfree, hstated, rfl⟩
    simp only [hfree, hstated]
    rfl

theorem newSquareSum_eq_error :
    p.newSquareSum scope half name = (q, .error f) ↔ ∃ p' free,
      p.newFreePolynomial (monomials scope (2 * half) 0) name = (p', free) ∧
        p'.withSquareSum free.polynomial scope (some half) name = (q, .error f) := by
  unfold newSquareSum
  constructor
  · intro h
    rcases hfree : p.newFreePolynomial (monomials scope (2 * half) 0) name with ⟨p', free⟩
    rcases hstated : p'.withSquareSum free.polynomial scope (some half) name with ⟨q', outcome⟩
    simp only [hfree, hstated] at h
    obtain ⟨rfl, houtcome⟩ := Prod.mk.inj h
    obtain rfl := map_eq_error.mp houtcome
    exact ⟨p', free, rfl, hstated⟩
  · rintro ⟨p', free, hfree, hstated⟩
    simp only [hfree, hstated]
    rfl

end

/-! ## Multipliers -/

section

variable {constraints multipliers : List (Expression K)} {k : ℕ} {g last : Expression K}

theorem registerMultipliers_cons_eq_ok :
    p.registerMultipliers rest scope degree name k (g :: constraints) =
        (q, .ok (multipliers, last)) ↔
      ∃ d p' s others, totalDegree g scope = .ok d ∧
        p.newSquareSum scope (multiplierHalf degree d) (name ++ toString (k + 1)) = (p', .ok s) ∧
        p'.registerMultipliers (rest - s * g) scope degree name (k + 1) constraints =
          (q, .ok (others, last)) ∧
        s :: others = multipliers := by
  constructor
  · intro h
    unfold registerMultipliers at h
    split at h
    · simp at h
    · next d hdegree =>
        split at h
        · simp at h
        · next p' s hnew =>
            obtain ⟨hq, houtcome⟩ := Prod.mk.inj h
            obtain ⟨⟨others, last'⟩, hothers, heq⟩ := map_eq_ok.mp houtcome
            obtain ⟨rfl, rfl⟩ := Prod.mk.inj heq
            exact ⟨d, p', s, others, hdegree, hnew, Prod.ext hq hothers, rfl⟩
  · rintro ⟨d, p', s, others, hdegree, hnew, hothers, rfl⟩
    rw [registerMultipliers, hdegree]
    simp only [hnew, hothers]
    rfl

theorem registerMultipliers_cons_eq_error :
    p.registerMultipliers rest scope degree name k (g :: constraints) = (q, .error f) ↔
      totalDegree g scope = .error f ∧ q = p ∨
      ∃ d, totalDegree g scope = .ok d ∧
        (p.newSquareSum scope (multiplierHalf degree d) (name ++ toString (k + 1)) =
            (q, .error f) ∨
          ∃ p' s, p.newSquareSum scope (multiplierHalf degree d) (name ++ toString (k + 1)) =
              (p', .ok s) ∧
            p'.registerMultipliers (rest - s * g) scope degree name (k + 1) constraints =
              (q, .error f)) := by
  constructor
  · intro h
    unfold registerMultipliers at h
    split at h
    · next f' hdegree =>
        obtain ⟨rfl, heq⟩ := Prod.mk.inj h
        obtain rfl := Except.error.inj heq
        exact .inl ⟨hdegree, rfl⟩
    · next d hdegree =>
        refine .inr ⟨d, hdegree, ?_⟩
        split at h
        · next p' f' hnew =>
            obtain ⟨rfl, heq⟩ := Prod.mk.inj h
            obtain rfl := Except.error.inj heq
            exact .inl hnew
        · next p' s hnew =>
            obtain ⟨hq, houtcome⟩ := Prod.mk.inj h
            exact .inr ⟨p', s, hnew, Prod.ext hq (map_eq_error.mp houtcome)⟩
  · rintro (⟨hdegree, rfl⟩ | ⟨d, hdegree, hnew | ⟨p', s, hnew, hothers⟩⟩)
    · rw [registerMultipliers, hdegree]
    · rw [registerMultipliers, hdegree]
      simp only [hnew]
    · rw [registerMultipliers, hdegree]
      simp only [hnew, hothers]
      rfl

/-! ## Certificates -/

theorem nonnegativeOn_eq_ok :
    p.nonnegativeOn e scope constraints degree name = (q, .ok multipliers) ↔ ∃ p' rest position,
      p.registerMultipliers e scope degree name 0 constraints = (p', .ok (multipliers, rest)) ∧
        p'.withSquareSum rest scope none (name ++ "0") = (q, .ok position) := by
  constructor
  · intro h
    unfold nonnegativeOn at h
    split at h
    · simp at h
    · next p' ms rest hmultipliers =>
        obtain ⟨hq, houtcome⟩ := Prod.mk.inj h
        obtain ⟨position, hposition, rfl⟩ := map_eq_ok.mp houtcome
        exact ⟨p', rest, position, hmultipliers, Prod.ext hq hposition⟩
  · rintro ⟨p', rest, position, hmultipliers, hbase⟩
    rw [nonnegativeOn, hmultipliers]
    simp only [hbase]
    rfl

/-- A certificate fails at its multipliers, or after all of them at its base. -/
theorem nonnegativeOn_eq_error :
    p.nonnegativeOn e scope constraints degree name = (q, .error f) ↔
      p.registerMultipliers e scope degree name 0 constraints = (q, .error f) ∨
      ∃ p' parts, p.registerMultipliers e scope degree name 0 constraints = (p', .ok parts) ∧
        p'.withSquareSum parts.2 scope none (name ++ "0") = (q, .error f) := by
  constructor
  · intro h
    unfold nonnegativeOn at h
    split at h
    · next p' f' hmultipliers =>
        obtain ⟨rfl, heq⟩ := Prod.mk.inj h
        obtain rfl := Except.error.inj heq
        exact .inl hmultipliers
    · next p' ms rest hmultipliers =>
        obtain ⟨hq, houtcome⟩ := Prod.mk.inj h
        exact .inr ⟨p', (ms, rest), hmultipliers, Prod.ext hq (map_eq_error.mp houtcome)⟩
  · rintro (hmultipliers | ⟨p', parts, hmultipliers, hbase⟩)
    · rw [nonnegativeOn, hmultipliers]
    · rw [nonnegativeOn, hmultipliers]
      simp only [hbase]
      rfl

end

/-! ## Stated certificates -/

def BeginsWith (constraints : Entries K) (first : List (Expression K)) : Prop :=
  first.map .one <+: constraints.items.toOption.getD []

omit [Scalar K] in
theorem eq_one_of_expression? {entry : Entries K} {e : Expression K}
    (h : entry.expression? = some e) : entry = .one e := by
  cases entry with
  | one e' => exact congrArg Entries.one (Option.some.inj h)
  | absent => cases h
  | list items => cases h
  | grid rows => cases h

omit [Scalar K] in
theorem map_one_of_isSome {items : List (Entries K)}
    (h : ∀ entry ∈ items, entry.expression?.isSome = true) :
    (items.filterMap Entries.expression?).map .one = items := by
  induction items with
  | nil => rfl
  | cons entry items ih =>
      obtain ⟨head, tail⟩ := List.forall_mem_cons.mp h
      obtain ⟨e, he⟩ := Option.isSome_iff_exists.mp head
      rw [List.filterMap_cons_some he, List.map_cons, ih tail, eq_one_of_expression? he]

theorem abandon_eq {e : Expression K} {constraints : List (Entries K)}
    {outcome : Except Failure (List (Expression K))}
    (h : p.abandon e scope constraints degree name f = (q, outcome)) :
    (∃ g, outcome = .error g) ∧ q =
      (p.registerMultipliers e scope degree name 0 (constraints.filterMap Entries.expression?)).1 := by
  unfold abandon at h
  cases hmultipliers : p.registerMultipliers e scope degree name 0
      (constraints.filterMap Entries.expression?) with
  | mk p' result =>
      simp only [hmultipliers] at h
      obtain ⟨rfl, rfl⟩ := Prod.mk.inj h
      refine ⟨?_, rfl⟩
      cases result with
      | error g => exact ⟨g, rfl⟩
      | ok parts => exact ⟨f, rfl⟩

theorem nonnegativeOnStated_cases {polynomial constraints : Entries K}
    {outcome : Except Failure (List (Expression K))}
    (h : p.nonnegativeOnStated polynomial scope constraints degree name = (q, outcome)) :
    (∃ e inequalities, polynomial = .one e ∧ constraints.items = .ok (inequalities.map .one) ∧
      p.nonnegativeOn e scope inequalities degree name = (q, outcome)) ∨
    ∃ e first g, BeginsWith constraints first ∧ outcome = .error g ∧
      q = (p.registerMultipliers e scope degree name 0 first).1 := by
  unfold nonnegativeOnStated at h
  cases hitems : constraints.items with
  | error g =>
      simp only [hitems] at h
      obtain ⟨rfl, rfl⟩ := Prod.mk.inj h
      exact .inr ⟨.zero, [], g, by simp [BeginsWith], rfl, rfl⟩
  | ok items =>
      have begins (k : ℕ) (hk : ∀ entry ∈ items.take k, entry.expression?.isSome = true) :
          BeginsWith constraints ((items.take k).filterMap Entries.expression?) := by
        rw [BeginsWith, map_one_of_isSome hk, hitems]
        exact List.take_prefix k items
      simp only [hitems] at h
      split at h
      · next e hpolynomial absent =>
          have present : ∀ entry ∈ items, entry.expression?.isSome = true := fun entry hentry => by
            simpa using List.findIdx?_eq_none_iff.mp absent entry hentry
          exact .inl ⟨e, _, eq_one_of_expression? hpolynomial, by rw [map_one_of_isSome present], h⟩
      · next e k hpolynomial absent =>
          obtain ⟨⟨g, rfl⟩, rfl⟩ := abandon_eq h
          refine .inr ⟨e, _, g, begins k (fun entry hentry => ?_), rfl, rfl⟩
          obtain ⟨i, hi, rfl⟩ := List.mem_take_iff_getElem.mp hentry
          have before := (List.findIdx?_eq_some_iff_getElem.mp absent).2.2 i (by omega)
          simpa [Option.isSome_iff_ne_none] using before
      · obtain ⟨rfl, rfl⟩ := Prod.mk.inj h
        exact .inr ⟨.zero, [], _, by simp [BeginsWith], rfl, rfl⟩
      · next hpolynomial hfirst =>
          obtain ⟨⟨g, rfl⟩, rfl⟩ := abandon_eq h
          refine .inr ⟨.zero, _, g, begins 1 (fun entry hentry => ?_), rfl, rfl⟩
          cases items with
          | nil => simp at hentry
          | cons first items =>
              obtain rfl : entry = first := by simpa using hentry
              simpa [List.findIdx?_cons, Option.isSome_iff_ne_none] using hfirst

end SquareProgram

end HybridRelaxation
