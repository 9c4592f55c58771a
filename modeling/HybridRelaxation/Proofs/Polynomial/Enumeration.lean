import Mathlib
import HybridRelaxation.Proofs.Polynomial.Exponents
import HybridRelaxation.Proofs.Polynomial.GradedOrder

/-!
# Enumerated exponent vectors

The enumeration of the vectors of bounded degree runs through them in graded order.  So sorting any
list of these vectors gives the enumeration.  A vector of degree at most `2 * h` is the sum of two
of degree at most `h`.
-/

namespace HybridRelaxation

namespace Exponents

/-! ## The order of the enumeration -/

theorem pairwise_homogeneousExponents (n d : ℕ) :
    (homogeneousExponents n d).Pairwise (fun e f => lexicographicOrder e f = .lt) := by
  induction n generalizing d with
  | zero => cases d <;> simp [homogeneousExponents]
  | succ n ih =>
      rw [homogeneousExponents, List.pairwise_flatMap]
      constructor
      · intro rest _
        rw [List.pairwise_map]
        exact (ih rest).imp (fun h => by simpa [lexicographicOrder] using h)
      · -- The more is left for the other entries, the smaller is the first one.
        refine List.pairwise_lt_range.imp_of_mem (fun {i j} hi hj hij => ?_)
        rw [List.mem_range] at hi hj
        simp only [List.mem_map]
        rintro _ ⟨e, -, rfl⟩ _ ⟨f, -, rfl⟩
        have first : compare ((d - j : ℕ) : ℤ) ((d - i : ℕ) : ℤ) = .lt := by
          rw [Int.compare_eq_lt]
          omega
        rw [lexicographicOrder, first]
        rfl

theorem pairwise_exponents (n : ℕ) (degree least : ℤ) :
    (exponents n degree least).Pairwise (fun e f => gradedOrder e f = .lt) := by
  rw [exponents, List.pairwise_flatMap]
  constructor
  · intro d _
    refine (pairwise_homogeneousExponents n d.toNat).imp_of_mem (fun {e f} he hf h => ?_)
    rw [gradedOrder, (mem_homogeneousExponents.mp he).2, (mem_homogeneousExponents.mp hf).2, h]
    simp
  · rw [integerRange, List.pairwise_map]
    refine List.pairwise_lt_range.imp (fun {i j} hij e he f hf => ?_)
    rw [mem_homogeneousExponents] at he hf
    have degrees : compare (totalDegreeOf e) (totalDegreeOf f) = .lt := by
      rw [Int.compare_eq_lt]
      omega
    rw [gradedOrder, degrees]
    rfl

theorem homogeneousExponents_zero (n : ℕ) : homogeneousExponents n 0 = [List.replicate n 0] := by
  induction n with
  | zero => rfl
  | succ n ih => simp [homogeneousExponents, ih, List.replicate_succ]

theorem head?_exponents (n : ℕ) {degree : ℤ} (h : 0 ≤ degree) :
    (exponents n degree 0).head? = some (List.replicate n 0) := by
  obtain ⟨d, rfl⟩ := Int.eq_ofNat_of_zero_le h
  have degrees : integerRange (max 0 0) d = 0 :: (List.range d).map (fun k => ((k + 1 : ℕ) : ℤ)) := by
    simp [integerRange, List.range_succ_eq_map]
  rw [exponents, degrees, List.flatMap_cons, Int.toNat_zero, homogeneousExponents_zero]
  rfl

/-- Vectors of bounded degree, each listed once in any order, are sorted into the enumeration. -/
theorem sortGraded_eq_exponents {es : List Exponents} (hes : es.Nodup) {n : ℕ} {degree : ℤ}
    (h : ∀ e, e ∈ es ↔ e ∈ exponents n degree 0) : sortGraded es = exponents n degree 0 := by
  have same : es.Perm (exponents n degree 0) :=
    (List.perm_ext_iff_of_nodup hes (nodup_exponents n degree 0)).mpr h
  rw [sortGraded_eq_of_perm same]
  refine List.mergeSort_of_pairwise ((pairwise_exponents n degree 0).imp (fun h => ?_))
  rw [h]
  rfl

/-! ## Sums of two vectors -/

theorem totalDegreeOf_addExponents {n : ℕ} {e f : Exponents} (he : e.IsNatural n)
    (hf : f.IsNatural n) :
    totalDegreeOf (addExponents e f) = totalDegreeOf e + totalDegreeOf f := by
  induction n generalizing e f with
  | zero => simp [isNatural_zero.mp he, isNatural_zero.mp hf, addExponents]
  | succ n ih =>
      cases e with
      | nil => simp at he
      | cons k e =>
          cases f with
          | nil => simp at hf
          | cons l f =>
              have rest := ih (isNatural_cons.mp he).2 (isNatural_cons.mp hf).2
              have sum : addExponents (k :: e) (l :: f) = (k + l) :: addExponents e f := rfl
              rw [sum, totalDegreeOf_cons, rest, totalDegreeOf_cons, totalDegreeOf_cons]
              omega

theorem exists_totalDegreeOf_eq {n : ℕ} (hn : n ≠ 0) {d : ℤ} (hd : 0 ≤ d) :
    ∃ e : Exponents, e.IsNatural n ∧ totalDegreeOf e = d := by
  obtain ⟨n, rfl⟩ := Nat.exists_eq_succ_of_ne_zero hn
  exact ⟨d :: List.replicate n 0, isNatural_cons.mpr ⟨hd, isNatural_replicate n⟩, by
    rw [totalDegreeOf_cons, totalDegreeOf_replicate, add_zero]⟩

theorem exists_addExponents {n : ℕ} {v : Exponents} (hv : v.IsNatural n) {d : ℤ} (hd : 0 ≤ d)
    (hle : d ≤ totalDegreeOf v) : ∃ e f : Exponents, e.IsNatural n ∧ f.IsNatural n ∧
      addExponents e f = v ∧ totalDegreeOf e = d := by
  induction n generalizing v d with
  | zero =>
      obtain rfl := isNatural_zero.mp hv
      exact ⟨[], [], hv, hv, rfl, by simpa using le_antisymm hd hle⟩
  | succ n ih =>
      cases v with
      | nil => simp at hv
      | cons k v =>
          obtain ⟨hk, hv⟩ := isNatural_cons.mp hv
          rw [totalDegreeOf_cons] at hle
          have nonneg := hv.totalDegreeOf_nonneg
          -- The first entry gives what it has, the others the rest.
          obtain ⟨e, f, he, hf, sum, degree⟩ := ih hv (d := d - min k d) (by omega) (by omega)
          refine ⟨min k d :: e, (k - min k d) :: f, isNatural_cons.mpr ⟨by omega, he⟩,
            isNatural_cons.mpr ⟨by omega, hf⟩, ?_, by rw [totalDegreeOf_cons, degree]; omega⟩
          have first : min k d + (k - min k d) = k := by omega
          rw [← sum, addExponents, List.zipWith_cons_cons, first]
          rfl

/-- A vector of degree at most `2 * h` is the sum of two of degree at most `h`. -/
theorem exists_halves {n : ℕ} {h : ℤ} (hh : 0 ≤ h) {v : Exponents}
    (hv : v ∈ exponents n (2 * h) 0) : ∃ e ∈ exponents n h 0, ∃ f ∈ exponents n h 0,
      addExponents e f = v := by
  obtain ⟨natural, nonneg, bound⟩ := mem_exponents.mp hv
  obtain ⟨e, f, he, hf, rfl, degree⟩ := exists_addExponents natural
    (d := min h (totalDegreeOf v)) (by omega) (by omega)
  rw [totalDegreeOf_addExponents he hf] at bound degree
  have he0 := he.totalDegreeOf_nonneg
  have hf0 := hf.totalDegreeOf_nonneg
  exact ⟨e, mem_exponents.mpr ⟨he, he0, by omega⟩, f, mem_exponents.mpr ⟨hf, hf0, by omega⟩, rfl⟩

theorem addExponents_mem_exponents {n : ℕ} {h : ℤ} {e f : Exponents} (he : e ∈ exponents n h 0)
    (hf : f ∈ exponents n h 0) : addExponents e f ∈ exponents n (2 * h) 0 := by
  rw [mem_exponents] at he hf ⊢
  rw [totalDegreeOf_addExponents he.1 hf.1]
  exact ⟨isNatural_addExponents he.1 hf.1, by omega, by omega⟩

end Exponents

end HybridRelaxation
