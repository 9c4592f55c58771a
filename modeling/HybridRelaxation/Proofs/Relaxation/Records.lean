import Mathlib
import HybridRelaxation.Proofs.Relaxation.Assembly
import HybridRelaxation.Proofs.SquareSum.Inversion

/-!
# Constraint records

Over numbers of any kind, an assembly leaves one record for each inequality that it certifies, in
order.  The record says where the statements of the inequality stand: a multiplier for each member of
the set, then the base.  The statements of one record start where those of the record before it end,
and nothing else is stated.
-/

namespace HybridRelaxation

variable {K : Type} [Scalar K]

/-! ## Statements of one inequality -/

structure SquareSum.Multiplies (scope : List Symbol) (degree : ℤ) (s : SquareSum K)
    (g : Expression K) : Prop where
  scope_eq : s.scope = scope
  shape : ∃ constraintDegree symbols, totalDegree g scope = .ok constraintDegree ∧
    s.basis =
      exponents scope.length (SquareProgram.multiplierHalf degree constraintDegree) 0 ∧
    s.polynomial = SquareProgram.combination symbols
      (monomials scope (2 * SquareProgram.multiplierHalf degree constraintDegree) 0)

def SquareSum.IsFree (s : SquareSum K) (block : List Symbol) : Prop :=
  ∃ start degree, block = SquareProgram.freshDecisions s.name start
      (monomials (K := K) s.scope degree 0).length ∧
    s.polynomial = SquareProgram.combination block (monomials s.scope degree 0)

/-- What multipliers leave of a polynomial, each taken away with its inequality in turn. -/
def remainder (e : Expression K) (multipliers : List (SquareSum K))
    (constraints : List (Expression K)) : Expression K :=
  (multipliers.zip constraints).foldl (fun rest (s, g) => rest - s.polynomial * g) e

namespace SquareProgram

variable {p q : SquareProgram K} {scope : List Symbol} {degree : ℤ} {name : String}

theorem withSquareSum_inversion {e : Expression K} {half : Option ℤ} {position : ℕ}
    (h : p.withSquareSum e scope half name = (q, .ok position)) :
    ∃ s : SquareSum K, q.statements = p.statements ++ [s] ∧ q.decisions = p.decisions ∧
      s.polynomial = e ∧ s.scope = scope ∧ s.name = name ∧
      s.basis = exponents scope.length (half.getD (halfDegree s.coefficients.totalDegree)) 0 := by
  obtain ⟨s, hs, rfl, -⟩ := withSquareSum_eq_ok.mp h
  exact ⟨s, rfl, rfl, (statement_inversion hs).2⟩

theorem newSquareSum_inversion {half : ℤ} {e : Expression K}
    (h : p.newSquareSum scope half name = (q, .ok e)) :
    ∃ (s : SquareSum K) (block : List Symbol), q.statements = p.statements ++ [s] ∧
      q.decisions = p.decisions ++ block ∧ s.IsFree block ∧ s.polynomial = e ∧
      s.scope = scope ∧ s.name = name ∧ s.basis = exponents scope.length half 0 ∧
      s.polynomial = combination block (monomials scope (2 * half) 0) := by
  obtain ⟨p', free, position, hfree, hstated, rfl⟩ := newSquareSum_eq_ok.mp h
  obtain ⟨rfl, rfl⟩ := Prod.mk.inj hfree
  obtain ⟨s, statements, decisions, polynomial, rfl, rfl, basis⟩ := withSquareSum_inversion hstated
  exact ⟨s, _, statements, decisions, ⟨p.size, 2 * half, rfl, polynomial⟩, polynomial, rfl,
    rfl, basis, polynomial⟩

theorem registerMultipliers_inversion {rest rest' : Expression K}
    {constraints multipliers : List (Expression K)} {k : ℕ}
    (h : p.registerMultipliers rest scope degree name k constraints =
      (q, .ok (multipliers, rest'))) :
    ∃ (added : List (SquareSum K)) (blocks : List (List Symbol)),
      q.statements = p.statements ++ added ∧ q.decisions = p.decisions ++ blocks.flatten ∧
      List.Forall₂ (SquareSum.Multiplies scope degree) added constraints ∧
      List.Forall₂ SquareSum.IsFree added blocks ∧
      added.map SquareSum.name =
        (List.range' k constraints.length).map (fun i => name ++ toString (i + 1)) ∧
      added.map SquareSum.polynomial = multipliers ∧ rest' = remainder rest added constraints := by
  induction constraints generalizing p rest k multipliers with
  | nil =>
      simp only [registerMultipliers, Prod.mk.injEq, Except.ok.injEq] at h
      obtain ⟨rfl, rfl, rfl⟩ := h
      exact ⟨[], [], by simp, by simp, .nil, .nil, rfl, rfl, rfl⟩
  | cons g constraints ih =>
      obtain ⟨d, p', e, others, hdegree, hnew, hothers, rfl⟩ := registerMultipliers_cons_eq_ok.mp h
      obtain ⟨s, block, statements, decisions, free, polynomial, hscope, hname, basis, shape⟩ :=
        newSquareSum_inversion hnew
      obtain ⟨added, blocks, statements', decisions', all, frees, names, polynomials, rest_eq⟩ :=
        ih hothers
      refine ⟨s :: added, block :: blocks, ?_, ?_,
        .cons ⟨hscope, d, block, hdegree, basis, shape⟩ all, .cons free frees, ?_, ?_, ?_⟩
      · simp [statements', statements]
      · simp [decisions', decisions]
      · simp [hname, names, List.range'_succ]
      · simp [polynomial, polynomials]
      · simpa [remainder, polynomial] using rest_eq

theorem nonnegativeOn_inversion {e : Expression K} {constraints result : List (Expression K)}
    (h : p.nonnegativeOn e scope constraints degree name = (q, .ok result)) :
    ∃ (multipliers : List (SquareSum K)) (base : SquareSum K) (blocks : List (List Symbol)),
      q.statements = p.statements ++ (multipliers ++ [base]) ∧
      q.decisions = p.decisions ++ blocks.flatten ∧
      List.Forall₂ (SquareSum.Multiplies scope degree) multipliers constraints ∧
      List.Forall₂ SquareSum.IsFree multipliers blocks ∧
      multipliers.map SquareSum.name =
        (List.range' 0 constraints.length).map (fun i => name ++ toString (i + 1)) ∧
      base.scope = scope ∧ base.name = name ++ "0" ∧
      base.polynomial = remainder e multipliers constraints ∧
      base.basis = exponents scope.length (halfDegree base.coefficients.totalDegree) 0 := by
  obtain ⟨p', rest, position, hmultipliers, hbase⟩ := nonnegativeOn_eq_ok.mp h
  obtain ⟨added, blocks, statements, decisions, all, frees, names, -, hrest⟩ :=
    registerMultipliers_inversion hmultipliers
  obtain ⟨base, statements', decisions', polynomial, hscope, hname, basis⟩ :=
    withSquareSum_inversion hbase
  refine ⟨added, base, blocks, ?_, decisions'.trans decisions, all, frees, names, hscope, hname,
    polynomial.trans hrest, basis⟩
  rw [statements', statements, List.append_assoc]

end SquareProgram

/-! ## Statements of records -/

/-- The statements of a record: a multiplier for each inequality, and last the base. -/
structure ConstraintRecord.IsStatedBy (r : ConstraintRecord K) (multipliers : List (SquareSum K))
    (base : SquareSum K) : Prop where
  count : r.multiplierCount = r.constraints.length
  weights : List.Forall₂ (SquareSum.Multiplies r.scope r.degree) multipliers r.constraints
  names : multipliers.map SquareSum.name =
    (List.range' 0 r.constraints.length).map (fun i => r.place.name ++ toString (i + 1))
  base_scope : base.scope = r.scope
  base_name : base.name = r.place.name ++ "0"
  base_polynomial : base.polynomial = remainder r.polynomial multipliers r.constraints
  base_basis : base.basis =
    exponents r.scope.length (SquareProgram.halfDegree base.coefficients.totalDegree) 0

/-- The list consists of the statements of the record, in order. -/
def ConstraintRecord.Owns (r : ConstraintRecord K) (ss : List (SquareSum K)) : Prop :=
  ∃ multipliers base, ss = multipliers ++ [base] ∧ r.IsStatedBy multipliers base

def AreFree (ss : List (SquareSum K)) (blocks : List (List Symbol)) : Prop :=
  List.Forall₂ SquareSum.IsFree ss.dropLast blocks

theorem ConstraintRecord.Owns.length {r : ConstraintRecord K} {ss : List (SquareSum K)}
    (h : r.Owns ss) : ss.length = r.constraints.length + 1 := by
  obtain ⟨multipliers, base, rfl, stated⟩ := h
  rw [List.length_append, stated.weights.length_eq]
  rfl

/-- The records of inequalities whose statements follow one another from a position on. -/
def recordsFrom (degree : ℤ) : ℕ → List (Inequality K) → List (ConstraintRecord K)
  | _, [] => []
  | offset, q :: qs => Assembly.recordOf q degree offset ::
      recordsFrom degree (offset + (q.constraints.length + 1)) qs

def flowBases (rs : List (ConstraintRecord K)) : List ℕ :=
  (rs.filter (fun r => r.place.kind = .liouville)).map (fun r => r.baseIndex.toNat)

/-! ## Taking steps -/

namespace Assembly

variable {a b : Assembly K} {degree : ℤ}

theorem certify_inversion {q : Inequality K} (h : a.certify degree q = (b, .ok ())) :
    ∃ ss blocks, (recordOf q degree a.program.statements.length).Owns ss ∧
      b.program.statements = a.program.statements ++ ss ∧
      b.records = a.records ++ [recordOf q degree a.program.statements.length] ∧
      b.liouvilleBases = a.liouvilleBases ++
        flowBases [recordOf q degree a.program.statements.length] ∧
      b.program.decisions = a.program.decisions ++ blocks.flatten ∧ AreFree ss blocks := by
  unfold certify at h
  split at h
  · simp at h
  · next program result hq =>
      obtain ⟨rfl, -⟩ := Prod.mk.inj h
      obtain ⟨multipliers, base, blocks, statements, decisions, all, frees, names, hscope, hname,
        polynomial, basis⟩ := SquareProgram.nonnegativeOn_inversion hq
      refine ⟨multipliers ++ [base], blocks, ⟨multipliers, base, rfl, rfl, all, names, hscope,
        hname, polynomial, basis⟩, statements, rfl, ?_, decisions,
        by rwa [AreFree, List.dropLast_concat]⟩
      cases hkind : q.place.kind <;>
        simp [flowBases, recordOf, ConstraintRecord.baseIndex, hkind]
      omega

theorem certify_eq_error {q : Inequality K} {f : Failure}
    (h : a.certify degree q = (b, .error f)) :
    (a.program.nonnegativeOn q.polynomial q.scope q.constraints degree q.place.name).2 =
      .error f := by
  unfold certify at h
  split at h
  · next program f' hq =>
      obtain rfl := Except.error.inj (Prod.mk.inj h).2
      rw [hq]
  · simp at h

def IsPlain : AssemblyStep K → Prop
  | .certify _ => True
  | .addToObjective _ => True
  | .abandon _ _ => False
  | .refuse _ => False

theorem takeAll_inversion {steps : List (AssemblyStep K)}
    (hplain : ∀ step ∈ steps, IsPlain step) (h : a.takeAll degree steps = (b, .ok ())) :
    ∃ sss, List.Forall₂ ConstraintRecord.Owns
        (recordsFrom degree a.program.statements.length (certifiedBy steps)) sss ∧
      b.program.statements = a.program.statements ++ sss.flatten ∧
      b.records =
        a.records ++ recordsFrom degree a.program.statements.length (certifiedBy steps) ∧
      b.liouvilleBases = a.liouvilleBases ++
        flowBases (recordsFrom degree a.program.statements.length (certifiedBy steps)) ∧
      ∃ blocks : List (List (List Symbol)),
        b.program.decisions = a.program.decisions ++ blocks.flatten.flatten ∧
          List.Forall₂ AreFree sss blocks := by
  induction steps generalizing a with
  | nil =>
      obtain ⟨rfl, -⟩ := Prod.mk.inj h
      exact ⟨[], .nil, by simp, by simp [certifiedBy, recordsFrom],
        by simp [certifiedBy, recordsFrom, flowBases], [], by simp, .nil⟩
  | cons step steps ih =>
      have head := hplain step (by simp)
      have tail : ∀ next ∈ steps, IsPlain next := fun next hnext => hplain next (by simp [hnext])
      obtain ⟨a', hstep, hothers⟩ := takeAll_cons_eq_ok.mp h
      cases step with
      | certify q =>
          obtain ⟨ss, block, owns, statements, records, bases, decisions, free⟩ :=
            certify_inversion hstep
          -- The records of the other steps start where the statements of this one stop.
          obtain ⟨sss, all, statements', records', bases', blocks, decisions', frees⟩ :=
            ih tail hothers
          have next : a'.program.statements.length =
              a.program.statements.length + (q.constraints.length + 1) := by
            rw [statements, List.length_append, owns.length]
            rfl
          rw [next] at all records' bases'
          refine ⟨ss :: sss, .cons owns all, ?_, ?_, ?_, block :: blocks, ?_, .cons free frees⟩
          · rw [statements', statements, List.append_assoc, List.flatten_cons]
          · rw [records', records, List.append_assoc]
            rfl
          · rw [bases', bases, List.append_assoc]
            change _ = _ ++ flowBases ([_] ++ _)
            rw [flowBases, flowBases, flowBases, List.filter_append, List.map_append]
            rfl
          · rw [decisions', decisions, List.append_assoc, List.flatten_cons, List.flatten_append]
      | addToObjective e =>
          obtain rfl := (Prod.mk.inj hstep).1
          exact ih (a := { a with objective := a.objective + e }) tail hothers
      | abandon q f => exact head.elim
      | refuse f => exact head.elim

theorem takeAll_eq_error {steps : List (AssemblyStep K)} {f : Failure}
    (hplain : ∀ step ∈ steps, IsPlain step) (h : a.takeAll degree steps = (b, .error f)) :
    ∃ q ∈ certifiedBy steps, ∃ program : SquareProgram K,
      (program.nonnegativeOn q.polynomial q.scope q.constraints degree q.place.name).2 =
        .error f := by
  induction steps generalizing a with
  | nil => simp [takeAll] at h
  | cons step steps ih =>
      have head := hplain step (by simp)
      have tail : ∀ next ∈ steps, IsPlain next := fun next hnext => hplain next (by simp [hnext])
      rcases takeAll_cons_eq_error.mp h with failed | ⟨a', -, hothers⟩
      · cases step with
        | certify q => exact ⟨q, by simp [certifiedBy], a.program, certify_eq_error failed⟩
        | addToObjective e => simp [take] at failed
        | abandon q f => exact head.elim
        | refuse f => exact head.elim
      · obtain ⟨q, hmem, program, failed⟩ := ih tail hothers
        exact ⟨q, mem_certifiedBy.mpr (List.mem_cons_of_mem _ (mem_certifiedBy.mp hmem)), program,
          failed⟩

end Assembly

end HybridRelaxation
