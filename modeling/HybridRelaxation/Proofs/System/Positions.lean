import Mathlib
import HybridRelaxation.Proofs.Outcome
import HybridRelaxation.System.Validation

/-!
# Positions of transitions

Over numbers of any kind, the labels of each transition of an accepted system name two of its modes,
and no two transitions join the same pair.  So what is looked up at a pair of positions is the
transition that joins them.
-/

namespace HybridRelaxation

section

variable {K S E : Type}

def TransitionData.JoinsAt (count : ℕ) (t : TransitionData E) (pair : ℕ × ℕ) : Prop :=
  PartCheck.modePosition? count t.source = some pair.1 ∧
    PartCheck.modePosition? count t.target = some pair.2

theorem TransitionData.JoinsAt.unique {count : ℕ} {t : TransitionData E} {pair other : ℕ × ℕ}
    (h : t.JoinsAt count pair) (h' : t.JoinsAt count other) : pair = other :=
  Prod.ext (Option.some.inj (h.1.symm.trans h'.1)) (Option.some.inj (h.2.symm.trans h'.2))

theorem lt_of_modePosition? {count i : ℕ} {label : Datum}
    (h : PartCheck.modePosition? count label = some i) : i < count := by
  unfold PartCheck.modePosition? at h
  split at h
  · next n _ =>
      split at h
      · next bounds =>
          obtain rfl := Option.some.inj h
          omega
      · simp at h
  · simp at h

theorem modePosition?_integer {n i : ℕ} (h : i < n) :
    PartCheck.modePosition? n (.integer i) = some i := by
  simp [PartCheck.modePosition?, Datum.integer?, h]

theorem equalsInteger_of_modePosition? {n i : ℕ} {label : Datum}
    (h : PartCheck.modePosition? n label = some i) (k : ℕ) :
    label.equalsInteger (k : ℤ) = decide (k = i) := by
  unfold PartCheck.modePosition? at h
  cases hvalue : label.integer? with
  | none => simp [hvalue] at h
  | some v =>
      simp only [hvalue] at h
      split at h
      · next hrange =>
          have hv : v = (i : ℤ) := by
            have := Option.some.inj h
            omega
          have same : (some v == some (k : ℤ)) = decide (k = i) := by
            rw [hv, Bool.eq_iff_iff]
            simp only [beq_iff_eq, Option.some.injEq, Nat.cast_inj, decide_eq_true_eq]
            exact eq_comm
          cases label with
          | real x => simp [Datum.integer?] at hvalue
          | _ => simp only [Datum.equalsInteger, hvalue, same]
      · simp at h

theorem TransitionData.JoinsAt.joins_iff {count : ℕ} {t : TransitionData E} {pair : ℕ × ℕ}
    (h : t.JoinsAt count pair) (i j : ℕ) :
    t.joins (.integer i) (.integer j) = true ↔ (i, j) = pair := by
  rw [TransitionData.joins, Datum.equals_integer, Datum.equals_integer,
    equalsInteger_of_modePosition? h.1, equalsInteger_of_modePosition? h.2, Bool.and_eq_true,
    decide_eq_true_iff, decide_eq_true_iff, Prod.ext_iff]

/-- The transitions join modes, different ones different pairs of these. -/
def SystemData.IsJoined (s : SystemData K S E) : Prop :=
  ∃ pairs : List (ℕ × ℕ), pairs.Nodup ∧
    List.Forall₂ (TransitionData.JoinsAt s.modeCount) s.transitions pairs

structure PartCheck.Accepts (check : PartCheck S E) (modes : List (ModeData K S E))
    (t : TransitionData E) (pair : ℕ × ℕ) : Prop where
  joins : t.JoinsAt modes.length pair
  parts : ∃ source target, modes[pair.1]? = some source ∧ modes[pair.2]? = some target ∧
    PartCheck.all check ("guard " ++ pairText t.source.display t.target.display) source.states
      t.guard = .ok () ∧ PartCheck.reset check source target t = .ok ()

/-- Transitions pass if each of them does and no two of them join the same pair. -/
theorem PartCheck.transitions_iff {check : PartCheck S E} {modes : List (ModeData K S E)}
    {ts : List (TransitionData E)} {seen : List (ℕ × ℕ)} :
    PartCheck.transitions check modes seen ts = .ok () ↔
      ∃ pairs : List (ℕ × ℕ), (pairs.Nodup ∧ ∀ pair ∈ pairs, pair ∉ seen) ∧
        List.Forall₂ (check.Accepts modes) ts pairs := by
  induction ts generalizing seen with
  | nil => simp [PartCheck.transitions]
  | cons t ts ih =>
      simp only [PartCheck.transitions, PartCheck.label, bind_check_eq_ok, require_eq_ok]
      constructor
      · rintro ⟨hsource, htarget, h⟩
        obtain ⟨i, hi⟩ := Option.isSome_iff_exists.mp hsource
        obtain ⟨j, hj⟩ := Option.isSome_iff_exists.mp htarget
        have source := List.getElem?_eq_getElem (lt_of_modePosition? hi)
        have target := List.getElem?_eq_getElem (lt_of_modePosition? hj)
        simp only [hi, hj, source, target, bind_check_eq_ok, require_eq_ok] at h
        obtain ⟨fresh, guard, reset, h⟩ := h
        obtain ⟨pairs, ⟨nodup, others⟩, all⟩ := ih.mp h
        refine ⟨(i, j) :: pairs, ⟨List.nodup_cons.mpr ⟨fun hmem => ?_, nodup⟩,
          fun pair hpair => ?_⟩, .cons ⟨⟨hi, hj⟩, _, _, source, target, guard, reset⟩ all⟩
        · exact others _ hmem (by simp)
        · rcases List.mem_cons.mp hpair with rfl | hpair
          · simpa using fresh
          · exact fun hmem => others pair hpair (by simp [hmem])
      · rintro ⟨pairs, ⟨nodup, fresh⟩, all⟩
        cases all with
        | @cons _ pair _ pairs head tail =>
            obtain ⟨⟨hi, hj⟩, source, target, hsource, htarget, guard, reset⟩ := head
            obtain ⟨hnot, nodup⟩ := List.nodup_cons.mp nodup
            refine ⟨by simp [hi], by simp [hj], ?_⟩
            simp only [hi, hj, hsource, htarget, bind_check_eq_ok, require_eq_ok]
            refine ⟨by simpa using fresh pair (by simp), guard, reset, ih.mpr
              ⟨pairs, ⟨nodup, fun other hother hmem => ?_⟩, tail⟩⟩
            rcases List.mem_cons.mp hmem with rfl | hmem
            · exact hnot hother
            · exact fresh other (by simp [hother]) hmem

theorem PartCheck.transitions_inversion {check : PartCheck S E} {modes : List (ModeData K S E)}
    {ts : List (TransitionData E)} {seen : List (ℕ × ℕ)}
    (h : PartCheck.transitions check modes seen ts = .ok ()) :
    ∃ pairs : List (ℕ × ℕ), (pairs.Nodup ∧ ∀ pair ∈ pairs, pair ∉ seen) ∧
      List.Forall₂ (TransitionData.JoinsAt modes.length) ts pairs := by
  obtain ⟨pairs, distinct, all⟩ := PartCheck.transitions_iff.mp h
  exact ⟨pairs, distinct, all.imp (fun _ _ accepted => accepted.joins)⟩

theorem SystemData.IsJoined.transition?_eq_some {s : SystemData K S E} (hs : s.IsJoined)
    {t : TransitionData E} {i j : ℕ} :
    s.transition? (.integer i) (.integer j) = some t ↔
      t ∈ s.transitions ∧ t.JoinsAt s.modeCount (i, j) := by
  obtain ⟨pairs, nodup, all⟩ := hs
  have found {t : TransitionData E} (ht : t ∈ s.transitions)
      (hjoins : t.joins (.integer i) (.integer j) = true) : t.JoinsAt s.modeCount (i, j) := by
    obtain ⟨pair, -, h⟩ := exists_right_of_mem all ht
    rwa [(h.joins_iff i j).mp hjoins]
  constructor
  · intro h
    have ht := List.mem_of_find?_eq_some h
    have joins := List.find?_some h
    exact ⟨ht, found ht joins⟩
  · rintro ⟨ht, h⟩
    have some_joins : (s.transition? (.integer i) (.integer j)).isSome := by
      rw [SystemData.transition?, List.find?_isSome]
      exact ⟨t, ht, (h.joins_iff i j).mpr rfl⟩
    obtain ⟨u, hu⟩ := Option.isSome_iff_exists.mp some_joins
    have hmem := List.mem_of_find?_eq_some hu
    have joins := List.find?_some hu
    have h' := found hmem joins
    -- Both stand where the list of pairs has the same entry.
    obtain ⟨a, ha⟩ := List.mem_iff_getElem?.mp ht
    obtain ⟨b, hb⟩ := List.mem_iff_getElem?.mp hmem
    obtain ⟨pair, hpair, first⟩ := exists_right_at all ha
    obtain ⟨other, hother, second⟩ := exists_right_at all hb
    obtain rfl := h.unique first
    obtain rfl := h'.unique second
    have bound := (List.getElem?_eq_some_iff.mp hpair).1
    obtain rfl := (List.getElem?_inj bound nodup).mp (hpair.trans hother.symm)
    rw [hu, ← ha, hb]

end

theorem isJoined_of_validate {K : Type} [Scalar K] {s : HybridSystem K}
    (h : s.validate = .ok ()) : s.IsJoined := by
  unfold HybridSystem.validate PartCheck.system at h
  simp only [bind_check_eq_ok] at h
  obtain ⟨pairs, ⟨nodup, -⟩, all⟩ := PartCheck.transitions_inversion h.2.2
  exact ⟨pairs, nodup, all⟩

end HybridRelaxation
