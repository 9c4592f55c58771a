import Mathlib
import HybridRelaxation.Polynomial.Exponents

/-!
# The graded order

Exponent vectors are linearly ordered by total degree and then in descending lexicographic order.
So a sorted list of vectors depends on the vectors only, not on the order they were found in.
-/

namespace HybridRelaxation

/-! ## A linear order -/

theorem lexicographicOrder_eq_compareLex :
    lexicographicOrder = List.compareLex (fun k l : ℤ => compare l k) := by
  funext e f
  induction e generalizing f with
  | nil => cases f <;> rfl
  | cons k e ih =>
      cases f with
      | nil => rfl
      | cons l f => rw [lexicographicOrder, ih, List.compareLex_cons_cons]

instance : Std.TransCmp lexicographicOrder := by
  rw [lexicographicOrder_eq_compareLex]
  infer_instance

instance : Std.LawfulEqCmp lexicographicOrder := by
  rw [lexicographicOrder_eq_compareLex]
  infer_instance

instance : Std.TransCmp gradedOrder :=
  inferInstanceAs (Std.TransCmp (compareLex (compareOn totalDegreeOf) lexicographicOrder))

theorem eq_of_gradedOrder_eq {e f : Exponents} (h : gradedOrder e f = .eq) : e = f :=
  Std.LawfulEqCmp.eq_of_compare (Ordering.then_eq_eq.mp h).2

/-! ## Sorting -/

theorem pairwise_sortGraded (es : List Exponents) :
    (sortGraded es).Pairwise (fun e f => (gradedOrder e f).isLE = true) := by
  refine List.pairwise_mergeSort (fun _ _ _ => Std.TransCmp.isLE_trans) (fun e f => ?_) es
  have swapped : gradedOrder f e = (gradedOrder e f).swap := Std.OrientedCmp.eq_swap
  rw [swapped]
  cases gradedOrder e f <;> rfl

theorem sortGraded_eq_of_perm {es fs : List Exponents} (h : es.Perm fs) :
    sortGraded es = sortGraded fs := by
  have same : (sortGraded es).Perm (sortGraded fs) :=
    (List.mergeSort_perm _ _).trans (h.trans (List.mergeSort_perm _ _).symm)
  exact same.eq_of_pairwise
    (fun e f _ _ hef hfe => eq_of_gradedOrder_eq (Std.OrientedCmp.isLE_antisymm hef hfe))
    (pairwise_sortGraded es) (pairwise_sortGraded fs)

theorem pairwise_sortGraded_lt {es : List Exponents} (hes : es.Nodup) :
    (sortGraded es).Pairwise (fun e f => gradedOrder e f = .lt) := by
  have distinct : (sortGraded es).Nodup := (List.mergeSort_perm _ _).nodup_iff.mpr hes
  refine (pairwise_sortGraded es).imp₂ (fun e f hle hne => ?_) distinct
  cases horder : gradedOrder e f with
  | lt => rfl
  | eq => exact (hne (eq_of_gradedOrder_eq horder)).elim
  | gt => simp [horder] at hle

theorem nodup_eraseDups {α : Type*} [BEq α] [LawfulBEq α] : ∀ xs : List α, xs.eraseDups.Nodup
  | [] => by simp
  | x :: xs => by
      rw [List.eraseDups_cons, List.nodup_cons, List.mem_eraseDups]
      exact ⟨by simp, nodup_eraseDups _⟩
termination_by xs => xs.length
decreasing_by exact Nat.lt_succ_of_le (List.length_filter_le _ _)

theorem perm_eraseDups {α : Type*} [BEq α] [LawfulBEq α] {xs ys : List α} (h : xs.Perm ys) :
    xs.eraseDups.Perm ys.eraseDups :=
  (List.perm_ext_iff_of_nodup (nodup_eraseDups xs) (nodup_eraseDups ys)).mpr
    (fun x => by rw [List.mem_eraseDups, List.mem_eraseDups, h.mem_iff])

end HybridRelaxation
