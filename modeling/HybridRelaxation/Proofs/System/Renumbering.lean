import Mathlib
import HybridRelaxation.Proofs.Rearrangement
import HybridRelaxation.Proofs.System.Consistency

/-!
# Systems under another numbering

A permutation of the modes of a system puts them in another order, and the labels of the transitions
follow.  The renumbered system has the same modes and joins them by the same transitions, each found
at the new positions, and it is consistent if the original is.
-/

namespace HybridRelaxation

/-! ## Positions -/

/-- The positions of modes are permuted, and all others are kept. -/
def positions {n : ℕ} (σ : Equiv.Perm (Fin n)) : Equiv.Perm ℕ :=
  σ.extendDomain Fin.equivSubtype

section

variable {n : ℕ} (σ : Equiv.Perm (Fin n))

theorem positions_of_lt {i : ℕ} (h : i < n) : positions σ i = σ ⟨i, h⟩ :=
  σ.extendDomain_apply_subtype Fin.equivSubtype h

theorem positions_lt {i : ℕ} (h : i < n) : positions σ i < n := by
  rw [positions_of_lt σ h]
  exact (σ ⟨i, h⟩).isLt

theorem symm_positions : (positions σ).symm = positions σ.symm :=
  σ.extendDomain_symm Fin.equivSubtype

end

/-! ## Renumbering -/

/-- The label of the same mode under another numbering; one that names no mode is kept. -/
def Datum.renumber (n : ℕ) (ρ : ℕ → ℕ) (label : Datum) : Datum :=
  match PartCheck.modePosition? n label with
  | .some i => .integer (ρ i)
  | .none => label

section

variable {K S E : Type}

def TransitionData.renumber (n : ℕ) (ρ : ℕ → ℕ) (t : TransitionData E) : TransitionData E where
  source := t.source.renumber n ρ
  target := t.target.renumber n ρ
  guard := t.guard
  reset := t.reset

def SystemData.renumber (s : SystemData K S E) (σ : Equiv.Perm (Fin s.modes.length)) :
    SystemData K S E where
  time := s.time
  modes := List.ofFn (fun i => s.modes.get (σ.symm i))
  transitions := s.transitions.map (TransitionData.renumber s.modes.length (positions σ))

/-- The same modes at other positions, joined by transitions with the same guards and resets. -/
structure SystemData.IsRenumbered (ρ : Equiv.Perm ℕ) (s s' : SystemData K S E) : Prop where
  time : s'.time = s.time
  modes : Rearranges ρ (fun m m' => m' = m) s.modes s'.modes
  jumps : ∀ i j : ℕ, Option.Rel (fun t t' => t'.guard = t.guard ∧ t'.reset = t.reset)
    (s.transition? (.integer i) (.integer j))
    (s'.transition? (.integer (ρ i)) (.integer (ρ j)))

/-! ## Labels -/

theorem TransitionData.JoinsAt.renumber {n : ℕ} (σ : Equiv.Perm (Fin n)) {t : TransitionData E}
    {i j : ℕ} (h : t.JoinsAt n (i, j)) :
    (t.renumber n (positions σ)).JoinsAt n (positions σ i, positions σ j) := by
  have label {d : Datum} {k : ℕ} (hd : PartCheck.modePosition? n d = some k) :
      PartCheck.modePosition? n (d.renumber n (positions σ)) = some (positions σ k) := by
    rw [Datum.renumber, hd]
    exact modePosition?_integer (positions_lt σ (lt_of_modePosition? hd))
  exact ⟨label h.1, label h.2⟩

namespace SystemData

variable (s : SystemData K S E) (σ : Equiv.Perm (Fin s.modes.length))

theorem length_modes_renumber : (s.renumber σ).modes.length = s.modes.length :=
  List.length_ofFn

theorem rearranges_modes_renumber :
    Rearranges (positions σ) (fun m m' => m' = m) s.modes (s.renumber σ).modes := by
  refine ⟨fun {i m} hm => ⟨m, ?_, rfl⟩, fun {i m} hm => ⟨m, ?_, rfl⟩⟩
  · obtain ⟨hi, rfl⟩ := List.getElem?_eq_some_iff.mp hm
    rw [positions_of_lt σ hi, renumber, List.getElem?_ofFn, dif_pos (σ ⟨i, hi⟩).isLt]
    simp
  · have hi : i < s.modes.length := by
      simpa [length_modes_renumber] using (List.getElem?_eq_some_iff.mp hm).1
    rw [renumber, List.getElem?_ofFn, dif_pos hi] at hm
    rw [symm_positions, positions_of_lt σ.symm hi, ← hm]
    simp

theorem mem_modes_renumber {m : ModeData K S E} : m ∈ (s.renumber σ).modes ↔ m ∈ s.modes := by
  rw [renumber, List.mem_ofFn, List.mem_iff_get]
  exact (σ.symm.surjective.exists (p := fun i => s.modes.get i = m)).symm

variable {s}

theorem IsJoined.renumber (hs : s.IsJoined) : (s.renumber σ).IsJoined := by
  obtain ⟨pairs, nodup, all⟩ := hs
  refine ⟨pairs.map (Prod.map (positions σ) (positions σ)),
    nodup.map ((positions σ).injective.prodMap (positions σ).injective), ?_⟩
  rw [modeCount, length_modes_renumber]
  refine List.forall₂_map_left_iff.mpr (List.forall₂_map_right_iff.mpr (all.imp ?_))
  exact fun t pair joins => joins.renumber σ

theorem transition?_renumber (hs : s.IsJoined) (i j : ℕ) :
    (s.renumber σ).transition? (.integer (positions σ i)) (.integer (positions σ j)) =
      (s.transition? (.integer i) (.integer j)).map
        (TransitionData.renumber s.modes.length (positions σ)) := by
  refine Option.ext (fun t' => ?_)
  rw [(hs.renumber σ).transition?_eq_some, Option.map_eq_some_iff, modeCount,
    length_modes_renumber]
  constructor
  · rintro ⟨ht', joins'⟩
    obtain ⟨t, ht, rfl⟩ := List.mem_map.mp ht'
    obtain ⟨pairs, -, all⟩ := id hs
    obtain ⟨⟨k, l⟩, -, joins⟩ := exists_right_of_mem all ht
    obtain ⟨hi, hj⟩ := Prod.mk.inj (joins'.unique (joins.renumber σ))
    obtain rfl := (positions σ).injective hi
    obtain rfl := (positions σ).injective hj
    exact ⟨t, hs.transition?_eq_some.mpr ⟨ht, joins⟩, rfl⟩
  · rintro ⟨t, found, rfl⟩
    obtain ⟨ht, joins⟩ := hs.transition?_eq_some.mp found
    exact ⟨List.mem_map_of_mem ht, joins.renumber σ⟩

theorem isRenumbered_renumber (hs : s.IsJoined) :
    IsRenumbered (positions σ) s (s.renumber σ) := by
  refine ⟨rfl, s.rearranges_modes_renumber σ, fun i j => ?_⟩
  rw [transition?_renumber σ hs]
  cases s.transition? (.integer i) (.integer j) with
  | none => exact .none
  | some t => exact .some ⟨rfl, rfl⟩

end SystemData

end

/-! ## Systems of polynomials -/

section

variable {s : HybridSystem Rat} (σ : Equiv.Perm (Fin s.modes.length))

theorem SystemData.IsPolynomial.renumber (hs : s.IsPolynomial) : (s.renumber σ).IsPolynomial := by
  refine ⟨fun m hm => hs.modes m ((s.mem_modes_renumber σ).mp hm), fun t' ht' => ?_⟩
  obtain ⟨t, ht, rfl⟩ := List.mem_map.mp ht'
  obtain ⟨guard, reset, shape⟩ := hs.transitions t ht
  exact ⟨guard, reset, shape⟩

theorem TransitionData.Fits.renumber {t : Transition Rat} {i j : ℕ} {source target : Mode Rat}
    (h : t.Fits s.modes i j source target) :
    (t.renumber s.modes.length (positions σ)).Fits (s.renumber σ).modes (positions σ i)
      (positions σ j) source target := by
  have joins : t.JoinsAt s.modes.length (i, j) := ⟨h.sourceLabel, h.targetLabel⟩
  obtain ⟨hi, hj⟩ := joins.renumber σ
  obtain ⟨_, hsource, rfl⟩ := (s.rearranges_modes_renumber σ).exists_right h.sourceMode
  obtain ⟨_, htarget, rfl⟩ := (s.rearranges_modes_renumber σ).exists_right h.targetMode
  refine ⟨⟨?_, ?_, hsource, htarget⟩, h.guard, h.reset⟩
  · rwa [s.length_modes_renumber σ]
  · rwa [s.length_modes_renumber σ]

theorem SystemData.IsConsistent.renumber (hs : s.IsConsistent) : (s.renumber σ).IsConsistent := by
  obtain ⟨pairs, nodup, all⟩ := hs.transitions
  refine ⟨fun empty => hs.nonempty ?_, fun m hm => hs.modes m ((s.mem_modes_renumber σ).mp hm),
    pairs.map (Prod.map (positions σ) (positions σ)),
    nodup.map ((positions σ).injective.prodMap (positions σ).injective), ?_⟩
  · rw [← List.length_eq_zero_iff, ← s.length_modes_renumber σ, empty, List.length_nil]
  · refine List.forall₂_map_left_iff.mpr (List.forall₂_map_right_iff.mpr (all.imp ?_))
    exact fun t pair ⟨source, target, fits⟩ => ⟨source, target, fits.renumber σ⟩

end

end HybridRelaxation
