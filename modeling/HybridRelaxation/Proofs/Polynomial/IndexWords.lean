import Mathlib
import HybridRelaxation.Proofs.Polynomial.Enumeration
import HybridRelaxation.Proofs.SquareSum.Matching

/-!
# Exponent vectors as counted words

A vector of natural numbers counts how often each variable occurs in a nondecreasing word of
variables.  The words of one length in lexicographic order give the vectors of one degree in
descending order, and the enumeration runs through the degrees.  So it lists each vector of bounded
degree once, in the order in which the rows of matching equations stand, and the number of all of
them is a binomial coefficient.
-/

namespace HybridRelaxation

namespace Exponents

/-! ## Pascal's rule -/

def raiseFirst : Exponents → Exponents
  | [] => []
  | k :: e => (k + 1) :: e

theorem homogeneousExponents_succ_succ (n d : ℕ) :
    homogeneousExponents (n + 1) (d + 1) =
      (homogeneousExponents (n + 1) d).map raiseFirst ++
        (homogeneousExponents n (d + 1)).map (0 :: ·) := by
  have raised : ∀ rest ∈ List.range (d + 1),
      (homogeneousExponents n rest).map (fun e => ((d + 1 - rest : ℕ) : ℤ) :: e) =
        ((homogeneousExponents n rest).map (fun e => ((d - rest : ℕ) : ℤ) :: e)).map raiseFirst := by
    intro rest hrest
    rw [List.mem_range] at hrest
    rw [List.map_map]
    refine List.map_congr_left (fun e _ => ?_)
    simp only [Function.comp_apply, raiseFirst]
    congr 1
    omega
  rw [homogeneousExponents, List.range_succ, List.flatMap_append, List.flatMap_singleton,
    Nat.sub_self, List.flatMap_congr raised, homogeneousExponents, List.map_flatMap]
  rfl

theorem length_homogeneousExponents (n d : ℕ) :
    (homogeneousExponents (n + 1) d).length = (n + d).choose d := by
  induction n generalizing d with
  | zero =>
      induction d with
      | zero => rfl
      | succ d ih =>
          rw [homogeneousExponents_succ_succ, homogeneousExponents, List.map_nil, List.append_nil,
            List.length_map, ih]
          simp
  | succ n ihn =>
      induction d with
      | zero => simp [homogeneousExponents_zero]
      | succ d ihd =>
          have pascal : (n + 1 + (d + 1)).choose (d + 1) =
              (n + 1 + d).choose d + (n + (d + 1)).choose (d + 1) := by
            rw [show n + 1 + (d + 1) = n + 1 + d + 1 by omega, Nat.choose_succ_succ',
              show n + (d + 1) = n + 1 + d by omega]
          rw [homogeneousExponents_succ_succ, List.length_append, List.length_map, List.length_map,
            ihd, ihn, pascal]

theorem length_exponents (n d : ℕ) : (exponents n d 0).length = (n + d).choose d := by
  rw [← length_homogeneousExponents, homogeneousExponents, exponents, integerRange]
  simp [List.length_flatMap, List.map_map, Function.comp_def]

/-! ## Words -/

def indexWords : ℕ → ℕ → List (List ℕ)
  | _, 0 => [[]]
  | 0, _ + 1 => []
  | n + 1, d + 1 =>
      (indexWords (n + 1) d).map (0 :: ·) ++ (indexWords n (d + 1)).map (List.map (· + 1))
termination_by n d => n + d

/-- How often each of the first natural numbers occurs in a word. -/
def letterCounts (n : ℕ) (word : List ℕ) : Exponents :=
  (List.range n).map (fun i => (word.count i : ℤ))

theorem letterCounts_zero_cons (n : ℕ) (word : List ℕ) :
    letterCounts (n + 1) (0 :: word) = raiseFirst (letterCounts (n + 1) word) := by
  simp [letterCounts, List.range_succ_eq_map, raiseFirst, List.count_cons]

theorem letterCounts_map_succ (n : ℕ) (word : List ℕ) :
    letterCounts (n + 1) (word.map (· + 1)) = 0 :: letterCounts n word := by
  have absent : (word.map (· + 1)).count 0 = 0 := List.count_eq_zero.mpr (by simp)
  have shifted (i : ℕ) : (word.map (· + 1)).count (i + 1) = word.count i :=
    List.count_map_of_injective word (· + 1) (add_left_injective 1) i
  simp [letterCounts, List.range_succ_eq_map, absent, shifted]

/-- Words in lexicographic order are counted to vectors in descending order. -/
theorem homogeneousExponents_eq_map_letterCounts (n d : ℕ) :
    homogeneousExponents n d = (indexWords n d).map (letterCounts n) := by
  induction n, d using indexWords.induct with
  | case1 n => simp [indexWords, homogeneousExponents_zero, letterCounts, List.map_const']
  | case2 d => simp [indexWords, homogeneousExponents]
  | case3 n d ihd ihn =>
      simp only [homogeneousExponents_succ_succ, indexWords, ihd, ihn, List.map_append, List.map_map,
        Function.comp_def, letterCounts_zero_cons, letterCounts_map_succ]

theorem nondecreasing_succ_iff {n d : ℕ} {word : List ℕ} :
    (word.length = d + 1 ∧ word.Pairwise (· ≤ ·) ∧ ∀ i ∈ word, i < n + 1) ↔
      (∃ rest : List ℕ, (rest.length = d ∧ rest.Pairwise (· ≤ ·) ∧ ∀ i ∈ rest, i < n + 1) ∧
        0 :: rest = word) ∨
      ∃ other : List ℕ, (other.length = d + 1 ∧ other.Pairwise (· ≤ ·) ∧ ∀ i ∈ other, i < n) ∧
        other.map (· + 1) = word := by
  constructor
  · rintro ⟨length, sorted, bound⟩
    match word, length with
    | 0 :: rest, length =>
        exact .inl ⟨rest, ⟨by simpa using length, sorted.of_cons, fun i hi => bound i (by simp [hi])⟩,
          rfl⟩
    | (k + 1) :: rest, length =>
        have positive : ∀ i ∈ (k + 1) :: rest, i - 1 + 1 = i := by
          intro i hi
          rcases List.mem_cons.mp hi with rfl | hi
          · omega
          · have := List.rel_of_pairwise_cons sorted hi
            omega
        refine .inr ⟨((k + 1) :: rest).map (· - 1), ⟨by simpa using length, ?_, ?_⟩, ?_⟩
        · exact sorted.map _ (fun i j hij => Nat.sub_le_sub_right hij 1)
        · intro i hi
          obtain ⟨j, hj, rfl⟩ := List.mem_map.mp hi
          have := bound j hj
          have := positive j hj
          omega
        · rw [List.map_map]
          exact (List.map_congr_left positive).trans (List.map_id _)
  · rintro (⟨rest, ⟨length, sorted, bound⟩, rfl⟩ | ⟨other, ⟨length, sorted, bound⟩, rfl⟩)
    · exact ⟨by simp [length], List.pairwise_cons.mpr ⟨fun i _ => Nat.zero_le i, sorted⟩,
        List.forall_mem_cons.mpr ⟨Nat.succ_pos n, bound⟩⟩
    · refine ⟨by simp [length], sorted.map _ (fun i j hij => Nat.succ_le_succ hij), fun i hi => ?_⟩
      obtain ⟨j, hj, rfl⟩ := List.mem_map.mp hi
      exact Nat.succ_lt_succ (bound j hj)

theorem mem_indexWords {n d : ℕ} {word : List ℕ} :
    word ∈ indexWords n d ↔ word.length = d ∧ word.Pairwise (· ≤ ·) ∧ ∀ i ∈ word, i < n := by
  induction n, d using indexWords.induct generalizing word with
  | case1 n =>
      rw [indexWords, List.mem_singleton]
      constructor
      · rintro rfl
        simp
      · intro h
        exact List.length_eq_zero_iff.mp h.1
  | case2 d =>
      rw [indexWords]
      refine iff_of_false (List.not_mem_nil) ?_
      rintro ⟨length, -, bound⟩
      match word, length with
      | i :: _, _ => exact absurd (bound i (by simp)) (Nat.not_lt_zero i)
  | case3 n d ihd ihn =>
      rw [indexWords, List.mem_append, List.mem_map, List.mem_map, nondecreasing_succ_iff]
      simp only [ihd, ihn]

theorem map_succ_lt_map_succ {word other : List ℕ} (h : word < other) :
    word.map (· + 1) < other.map (· + 1) := by
  induction h with
  | nil => exact .nil
  | cons _ ih => exact .cons ih
  | rel h => exact .rel (Nat.succ_lt_succ h)

theorem pairwise_indexWords (n d : ℕ) : (indexWords n d).Pairwise (· < ·) := by
  induction n, d using indexWords.induct with
  | case1 n => simp [indexWords]
  | case2 d => simp [indexWords]
  | case3 n d ihd ihn =>
      rw [indexWords, List.pairwise_append]
      refine ⟨ihd.map _ (fun _ _ h => .cons h), ihn.map _ (fun _ _ h => map_succ_lt_map_succ h), ?_⟩
      simp only [List.mem_map]
      rintro _ ⟨rest, -, rfl⟩ _ ⟨other, hother, rfl⟩
      match other, (mem_indexWords.mp hother).1 with
      | _ :: _, _ => exact .rel (Nat.succ_pos _)

/-! ## Order -/

/-- A lower degree comes first, and among equal degrees the lexicographically greater vector. -/
def ComesBefore (e f : Exponents) : Prop :=
  totalDegreeOf e < totalDegreeOf f ∨ totalDegreeOf e = totalDegreeOf f ∧ f < e

/-- The degree and the negated entries; lists of keys are compared entry by entry. -/
def sortKey (e : Exponents) : ℤ ×ₗ List ℤ := toLex (totalDegreeOf e, e.map (fun k => -k))

theorem lexicographicOrder_eq_lt {e f : Exponents} :
    lexicographicOrder e f = .lt ↔ e.map (fun k => -k) < f.map (fun k => -k) := by
  induction e generalizing f with
  | nil => cases f <;> simp [lexicographicOrder]
  | cons k e ih =>
      cases f with
      | nil => simp [lexicographicOrder]
      | cons l f =>
          rw [lexicographicOrder, Ordering.then_eq_lt, ih, List.map_cons, List.map_cons,
            List.cons_lt_cons_iff, compare_lt_iff_lt, compare_eq_iff_eq, neg_lt_neg_iff, neg_inj,
            eq_comm]

theorem gradedOrder_eq_lt {e f : Exponents} : gradedOrder e f = .lt ↔ sortKey e < sortKey f := by
  rw [gradedOrder, Ordering.then_eq_lt, compare_lt_iff_lt, compare_eq_iff_eq,
    lexicographicOrder_eq_lt, sortKey, sortKey, Prod.Lex.toLex_lt_toLex]

theorem map_neg_lt_map_neg {e f : Exponents} (h : e.length = f.length) :
    e.map (fun k => -k) < f.map (fun k => -k) ↔ f < e := by
  induction e generalizing f with
  | nil =>
      obtain rfl := List.length_eq_zero_iff.mp h.symm
      exact iff_of_false (lt_irrefl _) (lt_irrefl _)
  | cons k e ih =>
      cases f with
      | nil => simp at h
      | cons l f =>
          rw [List.map_cons, List.map_cons, List.cons_lt_cons_iff, List.cons_lt_cons_iff,
            ih (by simpa using h), neg_lt_neg_iff, neg_inj, eq_comm]

theorem comesBefore_iff {e f : Exponents} (h : e.length = f.length) :
    ComesBefore e f ↔ sortKey e < sortKey f := by
  rw [ComesBefore, sortKey, sortKey, Prod.Lex.toLex_lt_toLex, map_neg_lt_map_neg h]

end Exponents

open Exponents

/-! ## The enumeration -/

/--
The list has exactly the vectors of natural numbers whose sum lies between two bounds, each once, by
degree and within a degree in descending lexicographic order.
-/
structure Exponents.IsGradedListing (n : ℕ) (degree least : ℤ) (es : List Exponents) : Prop where
  mem : ∀ e : Exponents, e ∈ es ↔ (e.length = n ∧ ∀ k ∈ e, 0 ≤ k) ∧
    max least 0 ≤ totalDegreeOf e ∧ totalDegreeOf e ≤ degree
  nodup : es.Nodup
  increasing : es.Pairwise ComesBefore

/--
The exponent vectors of bounded degree are enumerated completely, without repetition and in graded
order, which is the order of the sort key and of the rows of every statement.  Within a degree they
count the letters of the nondecreasing words of this length, in lexicographic order.  There are
`(n + d).choose d` vectors up to degree `d`.
-/
theorem isGradedListing_exponents (n : ℕ) (degree least : ℤ) :
    IsGradedListing n degree least (exponents n degree least) ∧
    (exponents n degree least =
      (integerRange (max least 0) degree).flatMap (fun d => homogeneousExponents n d.toNat) ∧
      ∀ d, ∃ words : List (List ℕ), homogeneousExponents n d = words.map (letterCounts n) ∧
        words.Pairwise (· < ·) ∧
        ∀ word, word ∈ words ↔ word.length = d ∧ word.Pairwise (· ≤ ·) ∧ ∀ i ∈ word, i < n) ∧
    (∀ e f : Exponents, e.length = n ∧ f.length = n → (ComesBefore e f ↔ sortKey e < sortKey f)) ∧
    (∀ {K : Type} [Scalar K] (s : SquareSum K),
      s.matchedExponents.Pairwise (fun e f => sortKey e < sortKey f)) ∧
    ∀ d : ℕ, (exponents n d 0).length = (n + d).choose d := by
  have length : ∀ e ∈ exponents n degree least, e.length = n :=
    fun e he => (mem_exponents.mp he).1.length
  refine ⟨⟨fun e => ?_, nodup_exponents n degree least, ?_⟩, ⟨rfl, fun d => ?_⟩, ?_, ?_,
    length_exponents n⟩
  · rw [mem_exponents]
    constructor
    · rintro ⟨natural, least_le, le_degree⟩
      exact ⟨⟨natural.length, natural.nonneg⟩, max_le least_le natural.totalDegreeOf_nonneg,
        le_degree⟩
    · rintro ⟨⟨length, nonneg⟩, least_le, le_degree⟩
      exact ⟨⟨length, nonneg⟩, (le_max_left _ _).trans least_le, le_degree⟩
  · refine (pairwise_exponents n degree least).imp_of_mem (fun {e f} he hf h => ?_)
    exact (comesBefore_iff ((length e he).trans (length f hf).symm)).mpr (gradedOrder_eq_lt.mp h)
  · exact ⟨_, homogeneousExponents_eq_map_letterCounts n d, pairwise_indexWords n d,
      fun word => mem_indexWords⟩
  · exact fun e f h => comesBefore_iff (h.1.trans h.2.symm)
  · exact fun s => (pairwise_sortGraded_lt (nodup_eraseDups _)).imp gradedOrder_eq_lt.mp

example : exponents 2 2 0 = [[0, 0], [1, 0], [0, 1], [2, 0], [1, 1], [0, 2]] := by decide

end HybridRelaxation
