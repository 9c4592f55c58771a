import Mathlib
import HybridRelaxation.Proofs.Polynomial.GradedOrder
import HybridRelaxation.Proofs.Relaxation.Records
import HybridRelaxation.Proofs.Relaxation.Registration
import HybridRelaxation.Proofs.SquareSum.Program
import HybridRelaxation.SquareSum.Stated

/-!
# Histories of programs

A program is filled by calls with arbitrary arguments, and a call that fails may have registered
something before it failed.  Over numbers of any kind a call only adds at the end, and each decision
that it adds is labelled with its own position.  So over a whole history no two decisions have the
same column or the same printed name, and what a position denotes never changes.
-/

namespace HybridRelaxation

namespace SquareProgram

/-! ## Labels -/

/-- The last part of a label is the position, so labels at different positions differ. -/
theorem eq_of_label_eq {name name' : String} {k k' : ℕ}
    (h : name ++ "_" ++ toString k = name' ++ "_" ++ toString k') : k = k' := by
  have reversed := congrArg (fun label => label.toList.reverse) h
  simp only [String.toList_append, List.reverse_append, Nat.toString_eq_ofList_toDigits,
    String.toList_ofList] at reversed
  -- Up to its first underscore a reversed label has only the digits of its position.
  have upTo (n : ℕ) (rest : List Char) :
      ((Nat.toDigits 10 n).reverse ++ ("_".toList.reverse ++ rest)).takeWhile (· ≠ '_') =
        (Nat.toDigits 10 n).reverse := by
    have digits : ∀ c ∈ (Nat.toDigits 10 n).reverse, decide (c ≠ '_') = true := by
      intro c hc
      refine decide_eq_true (fun heq => ?_)
      rw [heq, List.mem_reverse] at hc
      exact Nat.underscore_not_in_toDigits hc
    rw [List.takeWhile_append_of_pos digits]
    simp
  have same := congrArg (List.takeWhile (· ≠ '_')) reversed
  rw [upTo, upTo, List.reverse_inj] at same
  exact Nat.repr_inj.mp (by rw [Nat.repr_eq_ofList_toDigits, same, ← Nat.repr_eq_ofList_toDigits])

def IsLabelledAt (k : ℕ) (s : Symbol) : Prop :=
  ∃ name, s = .decision k (name ++ "_" ++ toString k)

theorem isLabelledAt_freshDecisions {name : String} {start count k : ℕ} {s : Symbol}
    (h : (freshDecisions name start count)[k]? = some s) : IsLabelledAt (start + k) s := by
  simp only [freshDecisions, List.getElem?_map, Option.map_eq_some_iff,
    List.getElem?_eq_some_iff, List.getElem_range] at h
  obtain ⟨i, ⟨-, rfl⟩, rfl⟩ := h
  exact ⟨name, rfl⟩

/-! ## Columns and printed names -/

section Columns

variable {K : Type}

/-- Columns number the decisions, and neither symbols nor printed names repeat. -/
structure IsIndexed (p : SquareProgram K) : Prop where
  column : ∀ (k : ℕ) s, p.decisions[k]? = some s → p.index s = some (k : ℤ)
  columns : Set.BijOn p.index {s | s ∈ p.decisions} (some '' Set.Ico (0 : ℤ) p.size)
  others : ∀ s, s ∉ p.decisions → p.index s = none
  distinct : p.decisions.Nodup
  texts : (p.decisions.map Symbol.text).Nodup

variable {p : SquareProgram K}

theorem nodup_texts_of_isLabelledAt (h : ∀ k s, p.decisions[k]? = some s → IsLabelledAt k s) :
    (p.decisions.map Symbol.text).Nodup := by
  rw [List.nodup_iff_getElem?_ne_getElem?]
  intro i j hij hj heq
  rw [List.length_map] at hj
  have hi : i < p.decisions.length := hij.trans hj
  obtain ⟨name, hname⟩ := h i _ (List.getElem?_eq_getElem hi)
  obtain ⟨name', hname'⟩ := h j _ (List.getElem?_eq_getElem hj)
  rw [List.getElem?_map, List.getElem?_map, List.getElem?_eq_getElem hi,
    List.getElem?_eq_getElem hj, hname, hname'] at heq
  exact hij.ne (eq_of_label_eq (Option.some.inj heq))

theorem isIndexed_of_isLabelledAt (h : ∀ k s, p.decisions[k]? = some s → IsLabelledAt k s) :
    p.IsIndexed := by
  have texts := nodup_texts_of_isLabelledAt h
  have column : ∀ (k : ℕ) s, p.decisions[k]? = some s → p.index s = some (k : ℤ) := by
    intro k s hs
    obtain ⟨name, rfl⟩ := h k s hs
    rw [index, if_pos hs]
  refine ⟨column, ⟨fun s hs => ?_, fun s hs t _ heq => ?_, ?_⟩, fun s hs => ?_,
    texts.of_map Symbol.text, texts⟩
  · obtain ⟨k, hk⟩ := List.mem_iff_getElem?.mp hs
    have bound := (List.getElem?_eq_some_iff.mp hk).1
    exact ⟨k, ⟨by omega, by exact_mod_cast bound⟩, (column k s hk).symm⟩
  · obtain ⟨k, hk⟩ := List.mem_iff_getElem?.mp hs
    obtain ⟨j, -, -, hj, hget⟩ := index_eq_some (heq ▸ column k s hk)
    obtain rfl : k = j := by exact_mod_cast hj
    exact Option.some.inj (hk.symm.trans hget)
  · rintro _ ⟨j, ⟨hzero, hj⟩, rfl⟩
    obtain ⟨k, rfl⟩ := Int.eq_ofNat_of_zero_le hzero
    have bound : k < p.decisions.length := by exact_mod_cast hj
    exact ⟨p.decisions[k], List.getElem_mem bound,
      column k _ (List.getElem?_eq_getElem bound)⟩
  · cases hindex : p.index s with
    | none => rfl
    | some j =>
        obtain ⟨k, -, -, -, hk⟩ := index_eq_some hindex
        exact (hs (List.mem_of_getElem? hk)).elim

end Columns

/-! ## Growing -/

section Growing

variable {K : Type} {p q r : SquareProgram K} {symbols symbols' : List Symbol}

theorem getElem?_of_isPrefix {α : Type*} {xs ys : List α} (h : xs <+: ys) {k : ℕ} {x : α}
    (hx : xs[k]? = some x) : ys[k]? = some x := by
  obtain ⟨hk, rfl⟩ := List.getElem?_eq_some_iff.mp hx
  exact List.prefix_iff_getElem?.mp h k hk

/--
Decisions and statements are only added at the end, new decisions are labelled with their positions,
and the given symbols are registered as indeterminates.
-/
structure Grows (p : SquareProgram K) (symbols : List Symbol) (q : SquareProgram K) : Prop where
  decisions : p.decisions <+: q.decisions
  statements : p.statements <+: q.statements
  labelled : ∀ k s, p.size ≤ k → q.decisions[k]? = some s → IsLabelledAt k s
  indeterminates : q.indeterminates = (p.withIndeterminates symbols).indeterminates

theorem grows_withIndeterminates (p : SquareProgram K) (symbols : List Symbol) :
    p.Grows symbols (p.withIndeterminates symbols) :=
  ⟨List.prefix_rfl, List.prefix_rfl, fun k s hk h => by
    have bound : k < p.size := (List.getElem?_eq_some_iff.mp h).1
    omega, rfl⟩

theorem Grows.refl (p : SquareProgram K) : p.Grows [] p := grows_withIndeterminates p []

theorem Grows.trans (hpq : p.Grows symbols q) (hqr : q.Grows symbols' r) :
    p.Grows (symbols ++ symbols') r where
  decisions := hpq.decisions.trans hqr.decisions
  statements := hpq.statements.trans hqr.statements
  labelled := fun k s hk h => by
    by_cases hsize : q.size ≤ k
    · exact hqr.labelled k s hsize h
    · have before := List.prefix_iff_getElem?.mp hqr.decisions k (not_le.mp hsize)
      rw [h] at before
      exact hpq.labelled k s hk (by rw [before]; exact List.getElem?_eq_getElem _)
  indeterminates := by
    rw [hqr.indeterminates, withIndeterminates, hpq.indeterminates, withIndeterminates,
      withIndeterminates, List.foldl_append]

theorem Grows.index_eq (h : p.Grows symbols q) {t : Symbol} {j : ℤ} (ht : p.index t = some j) :
    q.index t = some j := by
  obtain ⟨k, label, rfl, rfl, hk⟩ := index_eq_some ht
  rw [index, if_pos (getElem?_of_isPrefix h.decisions hk)]

theorem Grows.index_of_new (h : p.Grows symbols q) {k : ℕ} {t : Symbol} (hk : p.size ≤ k)
    (ht : q.decisions[k]? = some t) : q.index t = some (k : ℤ) := by
  obtain ⟨label, rfl⟩ := h.labelled k t hk ht
  rw [index, if_pos ht]

theorem withIndeterminates_empty (symbols : List Symbol) :
    ((empty : SquareProgram K).withIndeterminates symbols).indeterminates = symbols.eraseDups := by
  induction symbols using List.reverseRecOn with
  | nil => rfl
  | append_singleton symbols s ih =>
      simp only [withIndeterminates] at ih ⊢
      rw [List.foldl_append, ih, List.eraseDups_append]
      by_cases hs : s ∈ symbols <;> simp [List.mem_eraseDups, List.removeAll, List.eraseDups_cons, hs]

end Growing

section Calls

variable {K : Type} [Scalar K] (p : SquareProgram K)

theorem grows_newFreePolynomial (basis : List (Expression K)) (name : String) :
    p.Grows [] (p.newFreePolynomial basis name).1 where
  decisions := List.prefix_append _ _
  statements := List.prefix_rfl
  labelled := fun k s hk h => by
    rw [newFreePolynomial, List.getElem?_append_right hk] at h
    obtain ⟨name', rfl⟩ := isLabelledAt_freshDecisions h
    have position : p.size + (k - p.decisions.length) = k := Nat.add_sub_cancel' hk
    rw [position]
    exact ⟨name', rfl⟩
  indeterminates := rfl

theorem grows_newStatedPolynomial (basis : Entries K) (name : String) :
    p.Grows [] (p.newStatedPolynomial basis name).1 := by
  unfold newStatedPolynomial
  cases basis.items with
  | error f => exact .refl p
  | ok items => exact p.grows_newFreePolynomial _ name

theorem grows_withSquareSum (e : Expression K) (scope : List Symbol) (half : Option ℤ)
    (name : String) : p.Grows [] (p.withSquareSum e scope half name).1 := by
  unfold withSquareSum
  cases statement e scope half name with
  | error f => exact .refl p
  | ok s => exact { Grows.refl p with statements := List.prefix_append _ _ }

theorem grows_newSquareSum (scope : List Symbol) (half : ℤ) (name : String) :
    p.Grows [] (p.newSquareSum scope half name).1 := by
  unfold newSquareSum
  have free := p.grows_newFreePolynomial (monomials scope (2 * half) 0) name
  cases hfree : p.newFreePolynomial (monomials scope (2 * half) 0) name with
  | mk q polynomial =>
      rw [hfree] at free
      exact free.trans (q.grows_withSquareSum polynomial.polynomial scope (some half) name)

theorem isKept_grows : IsKept (fun _ => True) (p.Grows []) where
  withSquareSum := fun h _ e half name => h.trans (grows_withSquareSum _ e _ half name)
  newSquareSum := fun h _ half name => h.trans (grows_newSquareSum _ _ half name)

theorem grows_registerMultipliers (rest : Expression K) (scope : List Symbol) (degree : ℤ)
    (name : String) (k : ℕ) (constraints : List (Expression K)) :
    p.Grows [] (p.registerMultipliers rest scope degree name k constraints).1 :=
  p.isKept_grows.registerMultipliers (.refl p) trivial rest degree name k constraints

theorem grows_nonnegativeOn (e : Expression K) (scope : List Symbol)
    (constraints : List (Expression K)) (degree : ℤ) (name : String) :
    p.Grows [] (p.nonnegativeOn e scope constraints degree name).1 :=
  p.isKept_grows.nonnegativeOn (.refl p) trivial e constraints degree name

theorem grows_nonnegativeOnStated (polynomial : Entries K) (scope : List Symbol)
    (constraints : Entries K) (degree : ℤ) (name : String) :
    p.Grows [] (p.nonnegativeOnStated polynomial scope constraints degree name).1 := by
  cases h : p.nonnegativeOnStated polynomial scope constraints degree name with
  | mk q outcome =>
      rcases nonnegativeOnStated_cases h with
        ⟨e, inequalities, -, -, hcertified⟩ | ⟨e, first, -, -, -, rfl⟩
      · have grows := p.grows_nonnegativeOn e scope inequalities degree name
        rwa [hcertified] at grows
      · exact p.grows_registerMultipliers e scope degree name 0 first

/-! ## Calls -/

inductive Call (K : Type) where
  | indeterminates (symbols : List Symbol)
  | freePolynomial (basis : Entries K) (name : String)
  | squareSum (polynomial : Expression K) (scope : List Symbol) (half : Option ℤ) (name : String)
  | newSquareSum (scope : List Symbol) (half : ℤ) (name : String)
  | nonnegativeOn (polynomial : Entries K) (scope : List Symbol) (constraints : Entries K)
      (degree : ℤ) (name : String)

/-- The program after a call, also after one that fails. -/
def Call.run : Call K → SquareProgram K
  | .indeterminates symbols => p.withIndeterminates symbols
  | .freePolynomial basis name => (p.newStatedPolynomial basis name).1
  | .squareSum polynomial scope half name => (p.withSquareSum polynomial scope half name).1
  | .newSquareSum scope half name => (p.newSquareSum scope half name).1
  | .nonnegativeOn polynomial scope constraints degree name =>
      (p.nonnegativeOnStated polynomial scope constraints degree name).1

def Call.symbols : Call K → List Symbol
  | .indeterminates symbols => symbols
  | _ => []

def history (calls : List (Call K)) : SquareProgram K := calls.foldl Call.run empty

theorem Call.grows (c : Call K) : p.Grows c.symbols (c.run p) := by
  cases c with
  | indeterminates symbols => exact p.grows_withIndeterminates symbols
  | freePolynomial basis name => exact p.grows_newStatedPolynomial basis name
  | squareSum polynomial scope half name => exact p.grows_withSquareSum polynomial scope half name
  | newSquareSum scope half name => exact p.grows_newSquareSum scope half name
  | nonnegativeOn polynomial scope constraints degree name =>
      exact p.grows_nonnegativeOnStated polynomial scope constraints degree name

theorem grows_foldl (calls : List (Call K)) :
    p.Grows (calls.flatMap Call.symbols) (calls.foldl Call.run p) := by
  induction calls generalizing p with
  | nil => exact .refl p
  | cons c calls ih =>
      rw [List.flatMap_cons, List.foldl_cons]
      exact (c.grows p).trans (ih (c.run p))

theorem grows_history (before after : List (Call K)) :
    (history before).Grows (after.flatMap Call.symbols) (history (before ++ after)) := by
  rw [history, history, List.foldl_append]
  exact grows_foldl _ after

/-! ## Whole histories -/

theorem nonnegativeOnStated_inversion {p q : SquareProgram K} {polynomial constraints : Entries K}
    {scope : List Symbol} {degree : ℤ} {name : String} {multipliers : List (Expression K)}
    (h : p.nonnegativeOnStated polynomial scope constraints degree name = (q, .ok multipliers)) :
    ∃ items added, constraints.items = .ok items ∧ q.statements = p.statements ++ added ∧
      added.length = items.length + 1 := by
  rcases nonnegativeOnStated_cases h with
    ⟨e, inequalities, -, hitems, hcertified⟩ | ⟨-, -, f, -, failed, -⟩
  · obtain ⟨multipliers, base, -, statements, -, weights, -⟩ := nonnegativeOn_inversion hcertified
    refine ⟨_, multipliers ++ [base], hitems, statements, ?_⟩
    rw [List.length_append, weights.length_eq, List.length_map]
    rfl
  · cases failed

theorem isIndexed_history (calls : List (Call K)) : (history calls).IsIndexed := by
  have grows := (empty : SquareProgram K).grows_foldl calls
  exact isIndexed_of_isLabelledAt (fun k s hs => grows.labelled k s (Nat.zero_le k) hs)

theorem indeterminates_history (calls : List (Call K)) :
    (history calls).indeterminates = (calls.flatMap Call.symbols).eraseDups :=
  ((empty : SquareProgram K).grows_foldl calls).indeterminates.trans (withIndeterminates_empty _)

/--
After any calls the decisions are numbered by their columns and have distinct names, and the
indeterminates are distinct and in the order of their first registration.  Any further calls only
add at the end, so columns and positions keep what they stand for.  A call that certifies a
polynomial on a set states one sum of squares for each inequality and one more.
-/
theorem invariant_of_history (calls further : List (Call K)) :
    (history calls).IsIndexed ∧
    (history calls).indeterminates.Nodup ∧
    (history calls).indeterminates = (calls.flatMap Call.symbols).eraseDups ∧
    (history calls).decisions <+: (history (calls ++ further)).decisions ∧
    (history calls).statements <+: (history (calls ++ further)).statements ∧
    (∀ s j, (history calls).index s = some j → (history (calls ++ further)).index s = some j) ∧
    (∀ polynomial scope half name position,
      ((history calls).withSquareSum polynomial scope half name).2 = .ok position →
      ∃ s, statement polynomial scope half name = .ok s ∧
        (history (calls ++ .squareSum polynomial scope half name :: further)).statements[position]? =
          some s) ∧
    (∀ polynomial scope constraints degree name multipliers,
      ((history calls).nonnegativeOnStated polynomial scope constraints degree name).2 =
        .ok multipliers →
      ∃ items added, constraints.items = .ok items ∧ added.length = items.length + 1 ∧
        (history (calls ++ [.nonnegativeOn polynomial scope constraints degree name])).statements =
          (history calls).statements ++ added) := by
  have grows := grows_history calls further
  refine ⟨isIndexed_history calls, ?_, indeterminates_history calls, grows.decisions,
    grows.statements, fun s j hj => ?_, fun polynomial scope half name position h => ?_,
    fun polynomial scope constraints degree name multipliers h => ?_⟩
  · rw [indeterminates_history]
    exact nodup_eraseDups _
  · have registered : s ∈ (history calls).decisions := by
      by_contra hs
      rw [(isIndexed_history calls).others s hs] at hj
      cases hj
    obtain ⟨k, hk⟩ := List.mem_iff_getElem?.mp registered
    rw [← hj, (isIndexed_history calls).column k s hk]
    exact (isIndexed_history (calls ++ further)).column k s (getElem?_of_isPrefix grows.decisions hk)
  · obtain ⟨s, hs, hprogram, rfl⟩ := withSquareSum_eq_ok.mp (Prod.ext rfl h)
    have later := grows_history (calls ++ [.squareSum polynomial scope half name]) further
    rw [List.append_assoc, List.singleton_append] at later
    refine ⟨s, hs, getElem?_of_isPrefix later.statements ?_⟩
    rw [history, List.foldl_append]
    change ((history calls).withSquareSum polynomial scope half name).1.statements[_]? = some s
    simp [hprogram]
  · obtain ⟨items, added, hitems, statements, hlength⟩ := nonnegativeOnStated_inversion
      (Prod.ext rfl h)
    refine ⟨items, added, hitems, hlength, ?_⟩
    rw [history, List.foldl_append]
    exact statements

end Calls

end SquareProgram

end HybridRelaxation
